import StudyNotes.Radix.KeyTreeCases

namespace StudyNotes.Radix.KeyTreeMultiset

open Words.CommonPrefix KeyTree KeyTreeCases

variable {α : Type}

theorem edgesKeys_append (es es' : Edges α) :
    edgesKeys (es ++ es') = edgesKeys es + edgesKeys es' := by
  induction es with
  | nil => simp [edgesKeys]
  | cons e es ih =>
      obtain ⟨b, t⟩ := e
      simp [edgesKeys, ih, add_assoc]

theorem edgesKeys_cons (b : UInt8) (t : Trie α) (es : Edges α) :
    edgesKeys ((b, t) :: es) = keys t + edgesKeys es := by rw [edgesKeys]

theorem edgesKeys_nil : edgesKeys ([] : Edges α) = 0 := by rw [edgesKeys]

theorem edgesKeys_perm {es es' : Edges α} (h : es.Perm es') : edgesKeys es = edgesKeys es' := by
  induction h with
  | nil => rfl
  | cons e _ ih => obtain ⟨b, t⟩ := e; simp [edgesKeys, ih]
  | swap e e' es =>
      obtain ⟨b, t⟩ := e
      obtain ⟨b', t'⟩ := e'
      simp only [edgesKeys]
      rw [add_left_comm]
  | trans _ _ ih ih' => exact ih.trans ih'

theorem mem_edgesKeys {k : List UInt8} {es : Edges α} :
    k ∈ edgesKeys es ↔ ∃ e ∈ es, k ∈ keys e.2 := by
  induction es with
  | nil => simp [edgesKeys]
  | cons e es ih =>
      obtain ⟨b, t⟩ := e
      simp [edgesKeys, ih]

theorem mem_keys_node {k : List UInt8} {a : α} {rc : UInt32} {p : List UInt8} {es : Edges α} :
    k ∈ keys (.node a rc p es) ↔
      (rc ≠ 0 ∧ k = p) ∨ ∃ k', k = p ++ k' ∧ k' ∈ edgesKeys es := by
  have hrc : rc.toNat ≠ 0 ↔ rc ≠ 0 := by
    rw [ne_eq, ne_eq, ← UInt32.toNat_inj]
    rfl
  rw [keys, Multiset.mem_map]
  constructor
  · rintro ⟨k', hk', rfl⟩
    rcases Multiset.mem_add.mp hk' with h | h
    · rw [Multiset.mem_replicate] at h
      obtain ⟨hn, rfl⟩ := h
      exact Or.inl ⟨hrc.mp hn, List.append_nil p⟩
    · exact Or.inr ⟨k', rfl, h⟩
  · rintro (⟨hn, rfl⟩ | ⟨k', rfl, h⟩)
    · refine ⟨[], Multiset.mem_add.mpr (Or.inl ?_), List.append_nil _⟩
      exact Multiset.mem_replicate.mpr ⟨hrc.mpr hn, rfl⟩
    · exact ⟨k', Multiset.mem_add.mpr (Or.inr h), rfl⟩

theorem bytes_prefix_of_mem {k : List UInt8} {t : Trie α} (h : k ∈ keys t) : t.bytes <+: k := by
  obtain ⟨a, rc, p, es⟩ := t
  rcases mem_keys_node.mp h with ⟨-, rfl⟩ | ⟨k', rfl, -⟩
  · exact List.prefix_refl _
  · exact List.prefix_append _ _

theorem keys_leaf (k : List UInt8) : keys (leaf k) = {k} := by
  simp [leaf, keys, edgesKeys]

/-- Splitting a node in two changes neither its keys nor those below it. -/
theorem keys_split (a b : α) (rc : UInt32) (c q : List UInt8) (x : UInt8) (es : Edges α) :
    keys (.node a 0 c [(x, .node b rc q es)]) = keys (.node b rc (c ++ q) es) := by
  simp [keys, edgesKeys, Multiset.map_map, List.append_assoc]

theorem keys_mergeInto (b : UInt8) (p : List UInt8) (t : Trie Unit) :
    keys (mergeInto p t) = keys (.node () 0 p [(b, t)]) := by
  obtain ⟨c, rc, q, es⟩ := t
  rw [mergeInto, keys_split]

theorem keys_node_add (a : α) (rc rc' : UInt32) (p : List UInt8) (es : Edges α)
    (h : rc'.toNat = rc.toNat + 1) : keys (.node a rc' p es) = p ::ₘ keys (.node a rc p es) := by
  simp [keys, h, Multiset.replicate_succ]

theorem keys_node_edges (a : α) (rc : UInt32) (p k : List UInt8) (es es' : Edges α)
    (h : edgesKeys es' = k ::ₘ edgesKeys es) :
    keys (.node a rc p es') = (p ++ k) ::ₘ keys (.node a rc p es) := by
  simp [keys, h]

theorem toNat_add_one {rc : UInt32} (h : rc.toNat + 1 < 2 ^ 32) : (rc + 1).toNat = rc.toNat + 1 := by
  rw [UInt32.toNat_add]
  exact Nat.mod_eq_of_lt h

theorem toNat_sub_one {rc : UInt32} (h : rc ≠ 0) : rc.toNat = (rc - 1).toNat + 1 := by
  have hpos : 1 ≤ rc.toNat := by
    rcases Nat.eq_zero_or_pos rc.toNat with h0 | h0
    · exact absurd (UInt32.toNat_inj.mp h0) h
    · exact h0
  have hs : (rc - 1).toNat = rc.toNat - 1 := UInt32.toNat_sub_of_le _ _ (UInt32.le_iff_toNat_le.mpr hpos)
  omega

theorem refcount_le_count (a : α) (rc : UInt32) (p : List UInt8) (es : Edges α) :
    rc.toNat ≤ (keys (.node a rc p es)).count p := by
  rw [keys, Multiset.map_add, Multiset.count_add, Multiset.map_replicate, List.append_nil,
    Multiset.count_replicate_self]
  exact Nat.le_add_right _ _

theorem count_edges_le (a : α) (rc : UInt32) (p k : List UInt8) (es : Edges α) :
    (edgesKeys es).count k ≤ (keys (.node a rc p es)).count (p ++ k) := by
  rw [keys, Multiset.map_add, Multiset.count_add,
    Multiset.count_map_eq_count' (p ++ ·) (edgesKeys es) (List.append_right_injective p)]
  exact Nat.le_add_left _ _

theorem keys_inserts {k : List UInt8} {t t' : Trie Unit} (hi : Inserts k t t')
    (h : (keys t).count k + 1 < 2 ^ 32) : keys t' = k ::ₘ keys t := by
  induction hi with
  | copy rc p es =>
      have hle := refcount_le_count () rc p es
      exact keys_node_add () rc (rc + 1) p es (toNat_add_one (by omega))
  | edge rc p y k es hy =>
      apply keys_node_edges
      rw [edgesKeys_append, edgesKeys_cons, edgesKeys_nil, keys_leaf, add_zero, add_comm,
        Multiset.singleton_add]
  | descend rc p y k l t t' r hy hi ih =>
      have hle := count_edges_le () rc p (y :: k) (l ++ (y, t) :: r)
      have hc : (keys t).count (y :: k) ≤ (edgesKeys (l ++ (y, t) :: r)).count (y :: k) := by
        rw [edgesKeys_append, edgesKeys_cons, Multiset.count_add, Multiset.count_add]
        omega
      apply keys_node_edges
      rw [edgesKeys_append, edgesKeys_append, edgesKeys_cons, edgesKeys_cons, ih (by omega)]
      simp
  | inside rc c x p es =>
      rw [← keys_split () () rc c (x :: p) x es]
      exact keys_node_add () 0 1 c _ rfl
  | fork rc c x p y k es hxy =>
      rw [← keys_split () () rc c (x :: p) x es]
      apply keys_node_edges
      rw [edgesKeys_cons, keys_leaf, Multiset.singleton_add]

/-- Inserting adds one copy of the key and nothing else, unless the key
already has as many copies as a 32-bit counter can hold. -/
theorem keys_insertKey (t : Trie Unit) (k : List UInt8) (h : (keys t).count k + 1 < 2 ^ 32) :
    keys (insertKey k t) = k ::ₘ keys t :=
  keys_inserts (insertKey_inserts t k) h

/-- A successful removal takes away one copy of the key and nothing else. -/
theorem keys_removes {root : Bool} {k : List UInt8} {t t' : Trie Unit} (hr : Removes root k t t') :
    keys t = k ::ₘ keys t' := by
  induction hr with
  | copy root rc p es hrc hmany => exact keys_node_add () (rc - 1) rc p es (toNat_sub_one hrc)
  | branch root p es hes => exact keys_node_add () 0 1 p es rfl
  | merge root p b child =>
      rw [keys_mergeInto b]
      exact keys_node_add () 0 1 p _ rfl
  | descend root rc p y k l t t' r hy hr ih =>
      apply keys_node_edges
      rw [edgesKeys_append, edgesKeys_append, edgesKeys_cons, edgesKeys_cons, ih]
      simp
  | sibling p y k l r e hy he =>
      obtain ⟨b, t⟩ := e
      rw [keys_mergeInto b, ← he]
      apply keys_node_edges
      rw [edgesKeys_append, edgesKeys_append, edgesKeys_cons, keys_leaf]
      simp
  | edge root rc p y k l r hy hn =>
      apply keys_node_edges
      rw [edgesKeys_perm (swapRemove_perm l _ r), edgesKeys_append, edgesKeys_append, edgesKeys_cons,
        keys_leaf]
      simp

end StudyNotes.Radix.KeyTreeMultiset
