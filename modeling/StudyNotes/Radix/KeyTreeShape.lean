import StudyNotes.Radix.KeyTreeMultiset

namespace StudyNotes.Radix.KeyTreeShape

open Words.CommonPrefix KeyTree KeyTreeCases KeyTreeMultiset

variable {α : Type}

inductive AllNodes (P : Trie α → Prop) : Trie α → Prop
  | node {a rc p es} (here : P (.node a rc p es)) (below : ∀ e ∈ es, AllNodes P e.2) :
      AllNodes P (.node a rc p es)

structure Labelled (t : Trie α) : Prop where
  first : ∀ e ∈ t.edges, e.2.bytes.head? = some e.1
  distinct : (labels t.edges).Nodup

abbrev Shaped (t : Trie α) : Prop := AllNodes Labelled t

/-- A node without a key is there to branch. The root is exempt. -/
def Full (t : Trie α) : Prop := t.refcount = 0 → 2 ≤ t.edges.length

def Branches (t : Trie α) : Prop := ∀ e ∈ t.edges, Full e.2

/-- Every string spelled from the start s to a node of the tree is in L. -/
inductive Within (L : List UInt8 → Prop) : List UInt8 → Trie α → Prop
  | node {s a rc p es} (here : L (s ++ p)) (below : ∀ e ∈ es, Within L (s ++ p) e.2) :
      Within L s (.node a rc p es)

def PrefixClosed (L : List UInt8 → Prop) : Prop := ∀ s s', L (s ++ s') → L s

theorem AllNodes.here {P : Trie α → Prop} {t : Trie α} (h : AllNodes P t) : P t := by
  cases h with
  | node here below => exact here

theorem AllNodes.child {P : Trie α → Prop} {t : Trie α} (h : AllNodes P t) :
    ∀ e ∈ t.edges, AllNodes P e.2 := by
  cases h with
  | node here below => exact below

/-- The shape of a node does not depend on its own bytes, count or tag. -/
theorem Labelled.reroot {a a' : α} {rc rc' : UInt32} {p p' : List UInt8} {es : Edges α}
    (h : Labelled (.node a rc p es)) : Labelled (.node a' rc' p' es) := ⟨h.first, h.distinct⟩

theorem Shaped.reroot {a a' : α} {rc rc' : UInt32} {p p' : List UInt8} {es : Edges α}
    (h : Shaped (.node a rc p es)) : Shaped (.node a' rc' p' es) :=
  AllNodes.node h.here.reroot h.child

theorem labelled_single (a : α) (rc : UInt32) (p : List UInt8) (x : UInt8) (t : Trie α)
    (h : t.bytes.head? = some x) : Labelled (.node a rc p [(x, t)]) := by
  refine ⟨fun e he => ?_, by simp [labels, Trie.edges]⟩
  obtain rfl : e = (x, t) := by simpa [Trie.edges] using he
  exact h

theorem labelled_pair (a : α) (rc : UInt32) (p : List UInt8) (x y : UInt8) (t u : Trie α)
    (hxy : x ≠ y) (ht : t.bytes.head? = some x) (hu : u.bytes.head? = some y) :
    Labelled (.node a rc p [(x, t), (y, u)]) := by
  refine ⟨fun e he => ?_, by simp [labels, Trie.edges, hxy]⟩
  rcases (by simpa [Trie.edges] using he : e = (x, t) ∨ e = (y, u)) with rfl | rfl
  · exact ht
  · exact hu

/-- Exchanging one child for another with the same first byte. -/
theorem Labelled.replace {a a' : α} {rc rc' : UInt32} {p p' : List UInt8} {l r : Edges α} {b : UInt8}
    {t t' : Trie α} (h : Labelled (.node a rc p (l ++ (b, t) :: r)))
    (ht : t'.bytes.head? = some b) : Labelled (.node a' rc' p' (l ++ (b, t') :: r)) := by
  refine ⟨fun e he => ?_, ?_⟩
  · rcases List.mem_append.mp he with hl | hr
    · exact h.first e (List.mem_append.mpr (Or.inl hl))
    · rcases List.mem_cons.mp hr with rfl | hr
      · exact ht
      · exact h.first e (List.mem_append.mpr (Or.inr (List.mem_cons_of_mem _ hr)))
  · simpa [labels, Trie.edges] using h.distinct

theorem Labelled.snoc {a a' : α} {rc rc' : UInt32} {p p' : List UInt8} {es : Edges α} {b : UInt8}
    {t : Trie α} (h : Labelled (.node a rc p es)) (ht : t.bytes.head? = some b)
    (hb : b ∉ labels es) : Labelled (.node a' rc' p' (es ++ [(b, t)])) := by
  refine ⟨fun e he => ?_, ?_⟩
  · rcases List.mem_append.mp he with hl | hr
    · exact h.first e hl
    · obtain rfl : e = (b, t) := by simpa using hr
      exact ht
  · change (labels (es ++ [(b, t)])).Nodup
    rw [labels_append, List.nodup_append]
    refine ⟨h.distinct, by simp [labels], ?_⟩
    rintro x hx y hy rfl
    obtain rfl : x = b := by simpa [labels] using hy
    exact hb hx

theorem Labelled.perm {a a' : α} {rc rc' : UInt32} {p p' : List UInt8} {l r es : Edges α}
    {e : UInt8 × Trie α} (h : Labelled (.node a rc p (l ++ e :: r))) (hp : es.Perm (l ++ r)) :
    Labelled (.node a' rc' p' es) := by
  have hsub : (l ++ r).Sublist (l ++ e :: r) :=
    List.Sublist.append (List.Sublist.refl l) (List.sublist_cons_self e r)
  refine ⟨fun e' he' => h.first e' (hsub.subset (hp.subset he')), ?_⟩
  exact ((hp.map Prod.fst).nodup_iff).mpr (h.distinct.sublist (hsub.map Prod.fst))

theorem inserts_head {k : List UInt8} {t t' : Trie Unit} (hi : Inserts k t t') {y : UInt8}
    (ht : t.bytes.head? = some y) (hk : k.head? = some y) : t'.bytes.head? = some y := by
  cases hi with
  | copy rc p es => exact ht
  | edge rc p z k es hz => exact ht
  | descend rc p z k l t t' r hz hi => exact ht
  | inside rc c x p es => exact hk
  | fork rc c x p z k es hxz =>
      cases c with
      | nil =>
          simp only [Trie.bytes, List.nil_append, List.head?_cons, Option.some.injEq] at ht hk
          exact absurd (ht.trans hk.symm) hxz
      | cons d c => simpa [Trie.bytes] using hk

theorem forall_append_cons {γ : Type} {P : γ → Prop} {l r : List γ} {x x' : γ}
    (h : ∀ e ∈ l ++ x :: r, P e) (hx : P x') : ∀ e ∈ l ++ x' :: r, P e := by
  intro e he
  rcases List.mem_append.mp he with he | he
  · exact h e (List.mem_append.mpr (Or.inl he))
  · rcases List.mem_cons.mp he with rfl | he
    · exact hx
    · exact h e (List.mem_append.mpr (Or.inr (List.mem_cons_of_mem _ he)))

theorem forall_concat {γ : Type} {P : γ → Prop} {l : List γ} {x : γ}
    (h : ∀ e ∈ l, P e) (hx : P x) : ∀ e ∈ l ++ [x], P e := by
  intro e he
  rcases List.mem_append.mp he with he | he
  · exact h e he
  · obtain rfl : e = x := by simpa using he
    exact hx

theorem forall_pair {γ : Type} {P : γ → Prop} {x y : γ} (hx : P x) (hy : P y) : ∀ e ∈ [x, y], P e := by
  simp [hx, hy]

theorem mem_of_mem_removed {γ : Type} {l r : List γ} {e x : γ} (h : e ∈ swapRemove l.length (l ++ x :: r)) :
    e ∈ l ++ x :: r := by
  rcases List.mem_append.mp ((swapRemove_perm l x r).subset h) with h | h
  · exact List.mem_append.mpr (Or.inl h)
  · exact List.mem_append.mpr (Or.inr (List.mem_cons_of_mem _ h))

theorem mem_of_append_eq {γ : Type} {l r : List γ} {e x : γ} (h : l ++ r = [e]) : e ∈ l ++ x :: r := by
  have he : e ∈ l ++ r := by simp [h]
  rcases List.mem_append.mp he with he | he
  · exact List.mem_append.mpr (Or.inl he)
  · exact List.mem_append.mpr (Or.inr (List.mem_cons_of_mem _ he))

theorem shaped_leaf (k : List UInt8) : Shaped (leaf k) :=
  AllNodes.node ⟨fun e he => by simp [Trie.edges] at he, by simp [labels, Trie.edges]⟩
    (fun e he => by simp at he)

theorem shaped_inserts {k : List UInt8} {t t' : Trie Unit} (hi : Inserts k t t') (h : Shaped t) :
    Shaped t' := by
  induction hi with
  | copy rc p es => exact h.reroot
  | edge rc p y k es hy =>
      exact AllNodes.node (h.here.snoc rfl hy) (forall_concat h.child (shaped_leaf _))
  | descend rc p y k l t t' r hy hi ih =>
      have hmem : (y, t) ∈ l ++ (y, t) :: r := by simp
      have hhead := inserts_head hi (h.here.first (y, t) hmem) rfl
      exact AllNodes.node (h.here.replace hhead) (forall_append_cons h.child (ih (h.child (y, t) hmem)))
  | inside rc c x p es =>
      refine AllNodes.node (labelled_single _ _ _ _ _ rfl) (fun e he => ?_)
      obtain rfl : e = (x, .node () rc (x :: p) es) := by simpa using he
      exact h.reroot
  | fork rc c x p y k es hxy =>
      exact AllNodes.node (labelled_pair _ _ _ _ _ _ _ (Ne.symm hxy) rfl rfl)
        (forall_pair (shaped_leaf _) h.reroot)

theorem mergeInto_head {p : List UInt8} {y : UInt8} (h : p.head? = some y) (t : Trie Unit) :
    (mergeInto p t).bytes.head? = some y := by
  obtain ⟨a, rc, q, es⟩ := t
  cases p with
  | nil => simp at h
  | cons x p => simpa [mergeInto, Trie.bytes] using h

theorem shaped_mergeInto {p : List UInt8} {t : Trie Unit} (h : Shaped t) : Shaped (mergeInto p t) := by
  obtain ⟨a, rc, q, es⟩ := t
  exact h.reroot

theorem removes_head {root : Bool} {k : List UInt8} {t t' : Trie Unit} (hr : Removes root k t t')
    {y : UInt8} (ht : t.bytes.head? = some y) : t'.bytes.head? = some y := by
  cases hr with
  | copy | branch | descend | edge => exact ht
  | merge => exact mergeInto_head ht _
  | sibling => exact mergeInto_head ht _

theorem shaped_removes {root : Bool} {k : List UInt8} {t t' : Trie Unit} (hr : Removes root k t t')
    (h : Shaped t) : Shaped t' := by
  induction hr with
  | copy | branch => exact h.reroot
  | merge root p b child => exact shaped_mergeInto (h.child (b, child) (by simp [Trie.edges]))
  | descend root rc p y k l t t' r hy hr ih =>
      have hmem : (y, t) ∈ l ++ (y, t) :: r := by simp
      have hhead := removes_head hr (h.here.first (y, t) hmem)
      exact AllNodes.node (h.here.replace hhead) (forall_append_cons h.child (ih (h.child (y, t) hmem)))
  | sibling p y k l r e hy he => exact shaped_mergeInto (h.child e (mem_of_append_eq he))
  | edge root rc p y k l r hy hn =>
      exact AllNodes.node (h.here.perm (swapRemove_perm l _ r))
        (fun e he => h.child e (mem_of_mem_removed he))

theorem Within.here {L : List UInt8 → Prop} {s : List UInt8} {t : Trie α} (h : Within L s t) :
    L (s ++ t.bytes) := by
  cases h with
  | node here below => exact here

theorem Within.child {L : List UInt8 → Prop} {s : List UInt8} {t : Trie α} (h : Within L s t) :
    ∀ e ∈ t.edges, Within L (s ++ t.bytes) e.2 := by
  cases h with
  | node here below => exact below

theorem within_leaf {L : List UInt8 → Prop} {s k : List UInt8} (h : L (s ++ k)) : Within L s (leaf k) :=
  Within.node h (fun e he => by simp at he)

/-- A node and its start can be cut at any point of the node's prefix. -/
theorem within_split {L : List UInt8 → Prop} {s c q : List UInt8} {rc : UInt32} {es : Edges Unit} :
    Within L (s ++ c) (.node () rc q es) ↔ Within L s (.node () rc (c ++ q) es) := by
  constructor
  · intro h
    exact Within.node (by simpa using h.here) (fun e he => by simpa [Trie.bytes] using h.child e he)
  · intro h
    exact Within.node (by simpa [Trie.bytes] using h.here)
      (fun e he => by simpa [Trie.bytes] using h.child e he)

theorem within_inserts {L : List UInt8 → Prop} (hL : PrefixClosed L) {k : List UInt8}
    {t t' : Trie Unit} (hi : Inserts k t t') {s : List UInt8} (h : Within L s t) (hk : L (s ++ k)) :
    Within L s t' := by
  induction hi generalizing s with
  | copy rc p es => exact Within.node h.here h.child
  | edge rc p y k es hy =>
      exact Within.node h.here (forall_concat h.child (within_leaf (by simpa [Trie.bytes] using hk)))
  | descend rc p y k l t t' r hy hi ih =>
      have ht := h.child (y, t) (by simp [Trie.edges])
      exact Within.node h.here (forall_append_cons h.child (ih ht (by simpa [Trie.bytes] using hk)))
  | inside rc c x p es =>
      refine Within.node hk (fun e he => ?_)
      obtain rfl : e = (x, .node () rc (x :: p) es) := by simpa using he
      exact within_split.mpr h
  | fork rc c x p y k es hxy =>
      refine Within.node (hL _ (y :: k) (by simpa using hk)) (forall_pair ?_ (within_split.mpr h))
      exact within_leaf (by simpa using hk)

theorem within_mergeInto {L : List UInt8 → Prop} {s p : List UInt8} {t : Trie Unit}
    (h : Within L (s ++ p) t) : Within L s (mergeInto p t) := by
  obtain ⟨a, rc, q, es⟩ := t
  exact within_split.mp h

theorem within_removes {L : List UInt8 → Prop} {root : Bool} {k : List UInt8} {t t' : Trie Unit}
    (hr : Removes root k t t') {s : List UInt8} (h : Within L s t) : Within L s t' := by
  induction hr generalizing s with
  | copy | branch => exact Within.node h.here h.child
  | merge root p b child => exact within_mergeInto (h.child (b, child) (by simp [Trie.edges]))
  | descend root rc p y k l t t' r hy hr ih =>
      have ht := h.child (y, t) (by simp [Trie.edges])
      exact Within.node h.here (forall_append_cons h.child (ih ht))
  | sibling p y k l r e hy he => exact within_mergeInto (h.child e (mem_of_append_eq he))
  | edge root rc p y k l r hy hn =>
      exact Within.node h.here (fun e he => h.child e (mem_of_mem_removed he))

theorem full_leaf (k : List UInt8) : Full (leaf k) := fun h0 => by simp [leaf, Trie.refcount] at h0

theorem branches_leaf (k : List UInt8) : AllNodes Branches (leaf k) :=
  AllNodes.node (fun e he => by simp [Trie.edges] at he) (fun e he => by simp at he)

/-- Branching is kept as long as the counter of the key does not wrap. -/
theorem branches_inserts {k : List UInt8} {t t' : Trie Unit} (hi : Inserts k t t')
    (hc : (keys t).count k + 1 < 2 ^ 32) (h : AllNodes Branches t) (hf : t.bytes ≠ [] → Full t) :
    AllNodes Branches t' ∧ (Full t → Full t') := by
  induction hi with
  | copy rc p es =>
      refine ⟨AllNodes.node h.here h.child, fun _ h0 => ?_⟩
      have hle := refcount_le_count () rc p es
      have hn : (rc + 1).toNat = rc.toNat + 1 := toNat_add_one (by omega)
      rw [show rc + 1 = 0 from h0] at hn
      exact absurd hn (by simp)
  | edge rc p y k es hy =>
      refine ⟨AllNodes.node (forall_concat h.here (full_leaf _)) (forall_concat h.child (branches_leaf _)),
        fun hf h0 => ?_⟩
      have h2 := hf h0
      simp only [Trie.edges, List.length_append, List.length_cons, List.length_nil] at h2 ⊢
      omega
  | descend rc p y k l t t' r hy hi ih =>
      have hmem : (y, t) ∈ l ++ (y, t) :: r := by simp
      have hle := count_edges_le () rc p (y :: k) (l ++ (y, t) :: r)
      have hct : (keys t).count (y :: k) ≤ (edgesKeys (l ++ (y, t) :: r)).count (y :: k) := by
        rw [edgesKeys_append, edgesKeys_cons, Multiset.count_add, Multiset.count_add]
        omega
      have hfull := h.here (y, t) hmem
      obtain ⟨hb, hf⟩ := ih (by omega) (h.child (y, t) hmem) (fun _ => hfull)
      refine ⟨AllNodes.node (forall_append_cons h.here (hf hfull)) (forall_append_cons h.child hb),
        fun hf h0 => ?_⟩
      simpa [Trie.edges] using hf h0
  | inside rc c x p es =>
      have hfull : Full (.node () rc (x :: p) es : Trie Unit) := hf (by simp [Trie.bytes])
      refine ⟨AllNodes.node (fun e he => ?_) (fun e he => ?_), fun _ h0 => absurd h0 (by simp [Trie.refcount])⟩
      all_goals obtain rfl : e = (x, .node () rc (x :: p) es) := by simpa [Trie.edges] using he
      · exact hfull
      · exact AllNodes.node h.here h.child
  | fork rc c x p y k es hxy =>
      have hfull : Full (.node () rc (x :: p) es : Trie Unit) := hf (by simp [Trie.bytes])
      exact ⟨AllNodes.node (forall_pair (full_leaf _) hfull)
        (forall_pair (branches_leaf _) (AllNodes.node h.here h.child)), fun _ _ => by simp [Trie.edges]⟩

theorem full_mergeInto {p : List UInt8} {t : Trie Unit} (h : Full t) : Full (mergeInto p t) := by
  obtain ⟨a, rc, q, es⟩ := t
  exact h

theorem branches_mergeInto {p : List UInt8} {t : Trie Unit} (h : AllNodes Branches t) :
    AllNodes Branches (mergeInto p t) := by
  obtain ⟨a, rc, q, es⟩ := t
  exact AllNodes.node h.here h.child

/-- Removing restores branching: this is what the two merges are for. -/
theorem branches_removes {root : Bool} {k : List UInt8} {t t' : Trie Unit} (hr : Removes root k t t')
    (h : AllNodes Branches t) : AllNodes Branches t' ∧ (root = false → Full t → Full t') := by
  induction hr with
  | copy root rc p es hrc hmany =>
      exact ⟨AllNodes.node h.here h.child, fun _ _ h0 => absurd h0 hmany⟩
  | branch root p es hes => exact ⟨AllNodes.node h.here h.child, fun _ _ _ => hes⟩
  | merge root p b child =>
      have hmem : (b, child) ∈ [(b, child)] := by simp
      exact ⟨branches_mergeInto (h.child (b, child) hmem),
        fun _ _ => full_mergeInto (h.here (b, child) hmem)⟩
  | descend root rc p y k l t t' r hy hr ih =>
      have hmem : (y, t) ∈ l ++ (y, t) :: r := by simp
      obtain ⟨hb, hf⟩ := ih (h.child (y, t) hmem)
      refine ⟨AllNodes.node (forall_append_cons h.here (hf rfl (h.here (y, t) hmem)))
        (forall_append_cons h.child hb), fun _ hf h0 => ?_⟩
      simpa [Trie.edges] using hf h0
  | sibling p y k l r e hy he =>
      have hmem := mem_of_append_eq (x := (y, leaf (y :: k))) he
      exact ⟨branches_mergeInto (h.child e hmem), fun _ _ => full_mergeInto (h.here e hmem)⟩
  | edge root rc p y k l r hy hn =>
      refine ⟨AllNodes.node (fun e he => h.here e (mem_of_mem_removed he))
        (fun e he => h.child e (mem_of_mem_removed he)), fun hroot hf h0 => ?_⟩
      have h2 := hf h0
      have hlen := (swapRemove_perm l (y, leaf (y :: k)) r).length_eq
      have hne : (l ++ r).length ≠ 1 := fun h1 => hn ⟨h0, hroot, h1⟩
      simp only [Trie.edges, List.length_append, List.length_cons] at h2 hlen hne ⊢
      omega

end StudyNotes.Radix.KeyTreeShape
