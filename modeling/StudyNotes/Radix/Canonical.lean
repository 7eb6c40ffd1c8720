import StudyNotes.Radix.Runs
import StudyNotes.Radix.Traversal
import Mathlib.Data.List.Perm.Basic

namespace StudyNotes.Radix.Canonical

open Heap.Program Heap.Triple Node Program KeyTree KeyTreeCases KeyTreeMultiset KeyTreeShape KeyTreeCount
open PlacedShape Refine Runs HeapShape Traversal

/-- Equality up to the order of the edges within each node. -/
inductive Same : Trie Unit → Trie Unit → Prop
  | node {rc : UInt32} {p : List UInt8} {es fs es' : Edges Unit} (perm : es.Perm fs)
      (labels_eq : labels fs = labels es') (below : ∀ e e', (e, e') ∈ fs.zip es' → Same e.2 e'.2) :
      Same (.node () rc p es) (.node () rc p es')

theorem head_of_mem {t : Trie Unit} (h : Labelled t) {e : UInt8 × Trie Unit} (he : e ∈ t.edges)
    {k : List UInt8} (hk : k ∈ keys e.2) : k.head? = some e.1 :=
  head_of_mem_keys (h.first e he) hk

theorem exists_key {t : Trie Unit} (h : AllNodes Branches t) (hfull : Full t) : ∃ k, k ∈ keys t := by
  induction t using tree_induct with
  | h a rc p es ih =>
      by_cases hrc : rc = 0
      · have hlen : 2 ≤ es.length := hfull hrc
        obtain ⟨e, he⟩ := List.exists_mem_of_length_pos (by omega : 0 < es.length)
        obtain ⟨k, hk⟩ := ih e he (h.child e he) (h.here e he)
        exact ⟨p ++ k, mem_keys_node.mpr (Or.inr ⟨k, rfl, mem_edgesKeys.mpr ⟨e, he, hk⟩⟩)⟩
      · exact ⟨p, mem_keys_node.mpr (Or.inl ⟨hrc, rfl⟩)⟩

/-- A string that two keys with different next bytes share is no longer than p. -/
theorem prefix_of_fork {s p k k' : List UInt8} {b b' : UInt8} (hb : b ≠ b') (hk : k.head? = some b)
    (hk' : k'.head? = some b') (h : s <+: p ++ k) (h' : s <+: p ++ k') : s <+: p := by
  rcases List.prefix_or_prefix_of_prefix h (List.prefix_append p k) with hs | ⟨r, rfl⟩
  · exact hs
  · rw [List.prefix_append_right_inj] at h h'
    cases r with
    | nil => rw [List.append_nil]
    | cons c r =>
        obtain ⟨k, rfl⟩ := List.head?_eq_some_iff.mp hk
        obtain ⟨k', rfl⟩ := List.head?_eq_some_iff.mp hk'
        exact absurd ((List.cons_prefix_cons.mp h).1.symm.trans (List.cons_prefix_cons.mp h').1) hb

/-- The prefix of a node that holds a key or branches is the longest common
prefix of its keys. -/
theorem prefix_of_common {t : Trie Unit} (hs : Shaped t) (hb : AllNodes Branches t) (hfull : Full t)
    {s : List UInt8} (h : ∀ k ∈ keys t, s <+: k) : s <+: t.bytes := by
  obtain ⟨⟨⟩, rc, p, es⟩ := t
  by_cases hrc : rc = 0
  · have hlen : 2 ≤ es.length := hfull hrc
    match es, hlen with
    | (b₁, t₁) :: (b₂, t₂) :: es, _ =>
        have hne : b₁ ≠ b₂ := by
          have hd := hs.here.distinct
          simp only [Trie.edges_node, labels_cons, List.nodup_cons, List.mem_cons, not_or] at hd
          exact hd.1.1
        obtain ⟨k₁, hk₁⟩ := exists_key (hb.child (b₁, t₁) (by simp)) (hb.here (b₁, t₁) (by simp))
        obtain ⟨k₂, hk₂⟩ := exists_key (hb.child (b₂, t₂) (by simp)) (hb.here (b₂, t₂) (by simp))
        refine prefix_of_fork hne (head_of_mem hs.here (e := (b₁, t₁)) (by simp) hk₁)
          (head_of_mem hs.here (e := (b₂, t₂)) (by simp) hk₂) (h _ ?_) (h _ ?_)
        · exact mem_keys_node.mpr (Or.inr ⟨k₁, rfl, mem_edgesKeys.mpr ⟨(b₁, t₁), by simp, hk₁⟩⟩)
        · exact mem_keys_node.mpr (Or.inr ⟨k₂, rfl, mem_edgesKeys.mpr ⟨(b₂, t₂), by simp, hk₂⟩⟩)
  · exact h p (mem_keys_node.mpr (Or.inl ⟨hrc, rfl⟩))

theorem bytes_eq {t t' : Trie Unit} (hs : Shaped t) (hs' : Shaped t') (hb : AllNodes Branches t)
    (hb' : AllNodes Branches t') (hf : Full t) (hf' : Full t') (hk : keys t = keys t') : t.bytes = t'.bytes := by
  have h : t.bytes <+: t'.bytes :=
    prefix_of_common hs' hb' hf' (fun k hmem => bytes_prefix_of_mem (by rwa [hk]))
  have h' : t'.bytes <+: t.bytes :=
    prefix_of_common hs hb hf (fun k hmem => bytes_prefix_of_mem (by rwa [← hk]))
  exact h.eq_of_length (Nat.le_antisymm h.length_le h'.length_le)

theorem filter_edgesKeys {t : Trie Unit} (h : Labelled t) {e : UInt8 × Trie Unit} (he : e ∈ t.edges) :
    (edgesKeys t.edges).filter (fun k => k.head? = some e.1) = keys e.2 := by
  obtain ⟨l, r, hes⟩ := List.append_of_mem he
  have hd := h.distinct
  rw [hes, labels_append, labels_cons] at hd
  have hother (e' : UInt8 × Trie Unit) (he' : e' ∈ l ++ r) : e'.1 ≠ e.1 := by
    intro heq
    have hnot := (List.nodup_middle.mp hd).notMem
    rw [← labels_append, labels] at hnot
    exact hnot (List.mem_map.mpr ⟨e', he', heq⟩)
  have hempty : (edgesKeys (l ++ r)).filter (fun k => k.head? = some e.1) = 0 := by
    rw [Multiset.filter_eq_nil]
    intro k hk
    obtain ⟨e', he', hk⟩ := mem_edgesKeys.mp hk
    have hmem : e' ∈ t.edges := by
      rw [hes, List.mem_append, List.mem_cons]
      exact (List.mem_append.mp he').imp id Or.inr
    rw [head_of_mem h hmem hk, Option.some.injEq]
    exact hother e' he'
  have hself : (keys e.2).filter (fun k => k.head? = some e.1) = keys e.2 :=
    Multiset.filter_eq_self.mpr (fun k hk => head_of_mem h he hk)
  rw [hes, edgesKeys_perm List.perm_middle, edgesKeys_cons, Multiset.filter_add, hempty, hself, add_zero]

theorem mem_labels_iff {t : Trie Unit} (h : Labelled t) (hb : AllNodes Branches t) (b : UInt8) :
    b ∈ labels t.edges ↔ ∃ k ∈ edgesKeys t.edges, k.head? = some b := by
  constructor
  · intro hmem
    obtain ⟨e, he, rfl⟩ := List.mem_map.mp hmem
    obtain ⟨a, rc, p, es⟩ := t
    obtain ⟨k, hk⟩ := exists_key (hb.child e he) (hb.here e he)
    exact ⟨k, mem_edgesKeys.mpr ⟨e, he, hk⟩, head_of_mem h he hk⟩
  · rintro ⟨k, hk, hkb⟩
    obtain ⟨e, he, hk⟩ := mem_edgesKeys.mp hk
    rw [head_of_mem h he hk, Option.some.injEq] at hkb
    exact List.mem_map.mpr ⟨e, he, hkb⟩

theorem node_eq_of_keys {rc rc' : UInt32} {p : List UInt8} {es es' : Edges Unit}
    (h : Labelled (.node () rc p es)) (h' : Labelled (.node () rc' p es'))
    (hk : keys (.node () rc p es) = keys (.node () rc' p es')) : rc = rc' ∧ edgesKeys es = edgesKeys es' := by
  rw [keys, keys] at hk
  have hsum := Multiset.map_injective (List.append_right_injective p) hk
  have hrc : rc = rc' := by
    have hzero : (edgesKeys es).count [] = 0 := Multiset.count_eq_zero.mpr (nil_notMem_edgesKeys h.first)
    have hzero' : (edgesKeys es').count [] = 0 := Multiset.count_eq_zero.mpr (nil_notMem_edgesKeys h'.first)
    have hcount := congrArg (Multiset.count []) hsum
    rw [Multiset.count_add, Multiset.count_add, Multiset.count_replicate_self, Multiset.count_replicate_self,
      hzero, hzero'] at hcount
    exact UInt32.toNat_inj.mp hcount
  subst hrc
  exact ⟨rfl, add_left_cancel hsum⟩

theorem exists_arranged {es es' : Edges Unit} (h : (labels es).Perm (labels es')) :
    ∃ fs, es.Perm fs ∧ labels fs = labels es' := by
  have hgraph : List.Forall₂ (fun b (e : UInt8 × Trie Unit) => b = e.1) (labels es) es := by
    rw [labels, List.forall₂_map_left_iff]
    exact List.forall₂_refl _
  obtain ⟨fs, hfs, hperm⟩ := List.perm_comp_forall₂ h.symm hgraph
  refine ⟨fs, hperm.symm, ?_⟩
  have hmap : List.Forall₂ (· = ·) (labels es') (labels fs) := by
    rw [labels, labels, List.forall₂_map_right_iff]
    exact hfs
  exact (List.forall₂_eq_eq_eq ▸ hmap).symm

theorem zip_label {fs es' : Edges Unit} (h : labels fs = labels es') {e e' : UInt8 × Trie Unit}
    (he : (e, e') ∈ fs.zip es') : e.1 = e'.1 := by
  obtain ⟨i, hi⟩ := List.mem_iff_getElem?.mp he
  rw [List.getElem?_zip_eq_some] at hi
  have heq := congrArg (fun l => l[i]?) h
  simp only [labels, List.getElem?_map, hi.1, hi.2, Option.map_some, Option.some.injEq] at heq
  exact heq

/-- A path-compressed tree is determined by its keys, up to the order of edges. -/
theorem same_of_keys {t t' : Trie Unit} (hs : Shaped t) (hs' : Shaped t') (hb : AllNodes Branches t)
    (hb' : AllNodes Branches t') (hp : t.bytes = t'.bytes) (hk : keys t = keys t') : Same t t' := by
  induction t using tree_induct generalizing t' with
  | h a rc p es ih =>
      obtain ⟨⟨⟩, rc', p', es'⟩ := t'
      obtain rfl : p = p' := hp
      obtain ⟨rfl, hes⟩ := node_eq_of_keys hs.here hs'.here hk
      have hlabels : (labels es).Perm (labels es') := by
        refine (List.perm_ext_iff_of_nodup hs.here.distinct hs'.here.distinct).mpr (fun b => ?_)
        rw [mem_labels_iff hs.here hb, mem_labels_iff hs'.here hb', Trie.edges_node, Trie.edges_node, hes]
      obtain ⟨fs, hperm, hfs⟩ := exists_arranged hlabels
      refine .node hperm hfs (fun e e' hmem => ?_)
      have he : e ∈ es := hperm.mem_iff.mpr (List.of_mem_zip hmem).1
      have he' : e' ∈ es' := (List.of_mem_zip hmem).2
      have hkeys : keys e.2 = keys e'.2 := by
        have hf := filter_edgesKeys hs.here he
        have hf' := filter_edgesKeys hs'.here he'
        rw [Trie.edges_node] at hf hf'
        rw [← hf, ← hf', hes, zip_label hfs hmem]
      exact ih e he (hs.child e he) (hs'.child e' he') (hb.child e he) (hb'.child e' he')
        (bytes_eq (hs.child e he) (hs'.child e' he') (hb.child e he) (hb'.child e' he') (hb.here e he)
          (hb'.here e' he') hkeys) hkeys

/-- Two histories leave the same tree, each in its own memory. -/
def SameTrees (A : Allocator Block) (ops : List Op) (A' : Allocator Block) (ops' : List Op) : Prop :=
  ∃ t m t' m' T T', run A ops emptyMem = .ok (t, m) ∧ run A' ops' emptyMem = .ok (t', m') ∧
    readOff m t.root = some T ∧ readOff m' t'.root = some T' ∧ Same T T'

theorem sameTrees_of_ledger {A A' : Allocator Block} {ops ops' : List Op} (h : Limits ops) (h' : Limits ops')
    (heq : ledger ops = ledger ops') : SameTrees A ops A' ops' := by
  obtain ⟨T, m, hrun, hT, -, hm⟩ := run_reaches A h.short
  obtain ⟨T', m', hrun', hT', -, hm'⟩ := run_reaches A' h'.short
  refine ⟨_, m, _, m', _, _, hrun, hrun', readOff_holds hm, readOff_holds hm', ?_⟩
  rw [hT, hT']
  have ha := agrees_run h
  have ha' := agrees_run h'
  refine same_of_keys (canon_run h.short).shaped (canon_run h'.short).shaped ha.branches ha'.branches ?_ ?_
  · rw [(root_run ops).1, (root_run ops').1]
  · rw [ha.keys, ha'.keys, heq]

theorem limits_insert_erase {ops : List Op} {k : Key} (h : Limits (ops ++ [.insert k])) :
    Limits (ops ++ [.insert k] ++ [.erase k]) := by
  refine ⟨fun k' hk' => h.short k' (by simpa using hk'), fun pre hpre s => ?_⟩
  rcases List.prefix_concat_iff.mp hpre with rfl | hpre
  · rw [ledger_concat]
    exact (Multiset.count_le_of_le s (Multiset.erase_le _ _)).trans_lt (h.copies _ (List.prefix_refl _) s)
  · exact h.copies pre hpre s

/-- The tree depends on the multiset of keys that a history leaves, and not on the
history: in particular erasing a key just inserted restores the tree. -/
theorem history_independent (A A' : Allocator Block) (ops ops' : List Op) (h : Limits ops) (h' : Limits ops')
    (heq : ledger ops = ledger ops') :
    SameTrees A ops A' ops' ∧
      ∀ k : Key, Limits (ops ++ [.insert k]) → SameTrees A (ops ++ [.insert k] ++ [.erase k]) A ops := by
  refine ⟨sameTrees_of_ledger h h' heq, fun k hk => sameTrees_of_ledger (limits_insert_erase hk) h ?_⟩
  rw [ledger_concat, ledger_concat]
  exact Multiset.erase_cons_head _ _

theorem history_independent_demo :
    SameTrees moving demo bump [.insert ⟨[97], by decide, by decide⟩] ∧
      ∀ k : Key, Limits (demo ++ [.insert k]) → SameTrees moving (demo ++ [.insert k] ++ [.erase k]) moving demo := by
  refine history_independent moving bump demo _ demo_limits (limits_of_length (fun k hk => ?_) (by decide)) ?_
  · obtain rfl : k = ⟨[97], by decide, by decide⟩ := by simpa using hk
    decide
  · simp only [demo, ledger, List.foldl_cons, List.foldl_nil, ledgerStep]
    decide

end StudyNotes.Radix.Canonical
