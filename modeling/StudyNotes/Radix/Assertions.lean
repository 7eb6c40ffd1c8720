import StudyNotes.Radix.Runs

namespace StudyNotes.Radix.Assertions

open Heap.Program Heap.Triple Node NodeSpec Program KeyTree KeyTreeCases KeyTreeShape Context MatchSpec
open InsertSpec InsertStep EraseSpec EraseStep PlacedShape Refine Runs

/-- What survives keys of any length: a truncated leaf may be empty, and the byte
that insert reads from it may repeat a label. -/
structure Loose (t : Trie Addr) : Prop where
  first : First t
  short : t.bytes.length < 2 ^ 32
  pairs : ∀ c, (labels t.edges).count c ≤ 2

theorem sound_of_loose {T : Trie Addr} (h : AllNodes Loose T) : AllNodes Sound T :=
  AllNodes.mono (fun _ h => ⟨h.first, h.short, few_of_pairs h.pairs⟩) h

theorem first_of_loose {T : Trie Addr} (h : AllNodes Loose T) : AllNodes First T :=
  AllNodes.mono (fun _ h => h.first) h

theorem loose_fill {f : Frame Addr} {t t' : Trie Addr} (h : AllNodes Loose (f.fill t)) (h' : AllNodes Loose t')
    (hhead : t'.bytes.head? = some f.label) : AllNodes Loose (f.fill t') := by
  refine .node ⟨fun e he => ?_, h.here.short, ?_⟩ (fun e he => ?_)
  · simp only [Trie.edges_node, List.mem_append, List.mem_cons] at he
    rcases he with he | rfl | he
    · exact h.here.first e (by simp [Frame.fill, he])
    · exact Or.inr hhead
    · exact h.here.first e (by simp [Frame.fill, he])
  · have hp := h.here.pairs
    simpa only [Frame.fill, Trie.edges_node, labels_append, labels_cons] using hp
  · simp only [List.mem_append, List.mem_cons] at he
    rcases he with he | rfl | he
    · exact h.child e (by simp [Frame.fill, he])
    · exact h'
    · exact h.child e (by simp [Frame.fill, he])

/-- A nonempty subtree may be exchanged for one with the same first byte. -/
theorem loose_replace {C : List (Frame Addr)} {t t' : Trie Addr} (h : AllNodes Loose (plug C t))
    (h' : AllNodes Loose t') (hhead : C = [] ∨ (t.bytes ≠ [] ∧ t'.bytes.head? = t.bytes.head?)) :
    AllNodes Loose (plug C t') := by
  induction C generalizing t t' with
  | nil => exact h'
  | cons f C ih =>
      obtain ⟨hne, hhead⟩ := hhead.resolve_left (List.cons_ne_nil _ _)
      have hlabel : t.bytes.head? = some f.label :=
        (first_focus (first_of_loose h)).resolve_left (fun hn => hne hn.1)
      have hfill : AllNodes Loose (f.fill t) := AllNodes.focus (C := C) (t := f.fill t) h
      refine ih h (loose_fill hfill h' (hhead.trans hlabel)) ?_
      cases C with
      | nil => exact Or.inl rfl
      | cons g C =>
          refine Or.inr ⟨fun hnil => ?_, rfl⟩
          rcases first_focus (first_of_loose h : AllNodes First (plug (g :: C) (f.fill t))) with hn | hn
          · simp [Frame.fill] at hn
          · simp [hnil] at hn

theorem root_replace {C : List (Frame Addr)} {t t' : Trie Addr} (h : (plug C t).bytes = [])
    (hroot : C = [] → t'.bytes = t.bytes) : (plug C t').bytes = [] := by
  cases C with
  | nil => exact (hroot rfl).trans h
  | cons f C =>
      clear hroot
      induction C generalizing f t t' with
      | nil => exact h
      | cons g C ih => exact ih g h

theorem loose_edges {a a' : Addr} {rc rc' : UInt32} {p p' : List UInt8} {es : Edges Addr}
    (h : AllNodes Loose (.node a rc p es)) (hp : p'.length < 2 ^ 32) : AllNodes Loose (.node a' rc' p' es) :=
  .node ⟨h.here.first, hp, h.here.pairs⟩ (fun e he => h.child e he)

theorem loose_leaf (x : Addr) (key : List UInt8) (size i : Nat) :
    AllNodes Loose (.node x 1 (leafBytes key size i) []) := by
  refine .node ⟨by simp [First], ?_, by simp [labels]⟩ (by simp)
  rw [Trie.bytes_node, leafBytes, List.length_take]
  exact (Nat.min_le_left _ _).trans_lt (Nat.mod_lt _ (by decide))

/-- The leaf for the rest of a key is empty or starts with the next byte. -/
theorem leaf_first {key u : List UInt8} {y : UInt8} {rest : List UInt8} (hkey : key = u ++ y :: rest) (size : Nat) :
    leafBytes key size u.length = [] ∨ (leafBytes key size u.length).head? = some y := by
  rw [leafBytes, hkey, List.drop_left]
  cases u32 (size - u.length) with
  | zero => exact Or.inl rfl
  | succ n => exact Or.inr rfl

theorem loose_grows {key : List UInt8} {size : Nat} {T T' : Trie Addr} {F F' : Multiset (Addr × Block)} {b : Bool}
    (hg : Grows key size T F b T' F') (h : AllNodes Loose T) (hroot : T.bytes = []) :
    AllNodes Loose T' ∧ T'.bytes = [] := by
  cases hg with
  | edge C a rc p es y rest a' x F hkey hC hi hy hp =>
      have hnode : AllNodes Loose (.node a rc p es) := AllNodes.focus h
      refine ⟨loose_replace h (.node ⟨fun e he => ?_, hnode.here.short, fun c => ?_⟩ (fun e he => ?_)) ?_,
        root_replace hroot (fun _ => rfl)⟩
      · rw [Trie.edges_node, List.mem_append, List.mem_singleton] at he
        rcases he with he | rfl
        · exact hnode.here.first e he
        · rw [← List.append_assoc] at hkey
          rw [← List.length_append]
          exact (leaf_first hkey size).imp (fun h => ⟨h, rfl⟩) id
      · have hc := hnode.here.pairs c
        rw [Trie.edges_node] at hc
        rw [Trie.edges_node, labels_append, labels_cons, List.count_append]
        by_cases hcy : y = c
        · subst hcy
          rw [List.count_eq_zero_of_not_mem hy]
          simp [labels]
        · simpa [labels, List.count_cons, hcy] using hc
      · rw [List.mem_append, List.mem_singleton] at he
        rcases he with he | rfl
        · exact hnode.child e he
        · exact loose_leaf x key size _
      · exact hp.imp id (fun hp => ⟨hp, rfl⟩)
  | adopt f a rc y rest a' x F hkey hf hi =>
      refine ⟨.node ⟨fun e he => ?_, by simp, fun c => ?_⟩ (fun e he => ?_), rfl⟩
      · obtain rfl := List.mem_singleton.mp he
        exact (leaf_first (u := []) hkey size).imp (fun h => ⟨h, rfl⟩) id
      · exact (List.count_le_length).trans (by simp [labels])
      · obtain rfl := List.mem_singleton.mp he
        exact loose_leaf x key size 0
  | fork f C a rc c x q es y rest y' a' x₁ x₂ F hkey hxy hC hi hc hy =>
      have hnode : AllNodes Loose (.node a rc (c ++ x :: q) es) := AllNodes.focus h
      have hlen := hnode.here.short
      simp only [Trie.bytes_node, List.length_append, List.length_cons] at hlen
      refine ⟨loose_replace h (.node ⟨fun e he => ?_, by rw [Trie.bytes_node]; omega, fun c => ?_⟩ (fun e he => ?_)) ?_,
        root_replace hroot (by simp)⟩
      · simp only [Trie.edges_node, List.mem_cons, List.not_mem_nil, or_false] at he
        rcases he with rfl | rfl
        · rw [← List.append_assoc] at hkey
          have hl := leaf_first hkey size
          rw [List.length_append] at hl
          refine hl.imp (fun h => ⟨h, rfl⟩) (fun h => ?_)
          rw [hy y h]
          exact h
        · exact Or.inr rfl
      · exact (List.count_le_length).trans (by simp [labels])
      · simp only [List.mem_cons, List.not_mem_nil, or_false] at he
        rcases he with rfl | rfl
        · exact loose_leaf x₁ key size _
        · exact loose_edges hnode (by rw [List.length_cons]; omega)
      · exact Or.inr ⟨by simp, by simp [List.head?_append_of_ne_nil _ hc]⟩
  | inside f C a rc c x q es y rest a' x₂ F hkey hC hi hc =>
      have hnode : AllNodes Loose (.node a rc (c ++ x :: q) es) := AllNodes.focus h
      have hlen := hnode.here.short
      simp only [Trie.bytes_node, List.length_append, List.length_cons] at hlen
      refine ⟨loose_replace h (.node ⟨fun e he => ?_, by rw [Trie.bytes_node]; omega, fun c => ?_⟩ (fun e he => ?_)) ?_,
        root_replace hroot (by simp)⟩
      · obtain rfl := List.mem_singleton.mp he
        exact Or.inr rfl
      · exact (List.count_le_length).trans (by simp [labels])
      · obtain rfl := List.mem_singleton.mp he
        exact loose_edges hnode (by rw [List.length_cons]; omega)
      · exact Or.inr ⟨by simp, by simp [List.head?_append_of_ne_nil _ hc]⟩
  | copy f C a rc p es rest F hkey hC hi hp =>
      have hnode : AllNodes Loose (.node a rc p es) := AllNodes.focus h
      exact ⟨loose_replace h (loose_edges hnode hnode.here.short) (Or.inr ⟨hp, rfl⟩), root_replace hroot (by simp)⟩

theorem loose_shrinks {key : List UInt8} {size : Nat} {T T' : Trie Addr} {b : Bool}
    (hs : Shrinks key size T b T') (h : AllNodes Loose T) (hroot : T.bytes = []) :
    AllNodes Loose T' ∧ T'.bytes = [] := by
  cases hs with
  | missing C t i j hstop hmiss => exact ⟨h, hroot⟩
  | copy f C a rc p es hit hrc hmany =>
      have hnode : AllNodes Loose (.node a rc p es) := AllNodes.focus h
      exact ⟨loose_replace h (loose_edges hnode hnode.here.short) (Or.inr ⟨hit.ne_nil, rfl⟩),
        root_replace hroot (by simp)⟩
  | branch f C a p es hit hes =>
      have hnode : AllNodes Loose (.node a 1 p es) := AllNodes.focus h
      exact ⟨loose_replace h (loose_edges hnode hnode.here.short) (Or.inr ⟨hit.ne_nil, rfl⟩),
        root_replace hroot (by simp)⟩
  | merge f C a c a' p b rc q es hit hfit =>
      have hnode : AllNodes Loose (.node a 1 p [(b, .node c rc q es)]) := AllNodes.focus h
      have hchild := hnode.child (b, .node c rc q es) (List.mem_singleton_self _)
      refine ⟨loose_replace h (loose_edges hchild (by rwa [List.length_append])) ?_, root_replace hroot (by simp)⟩
      exact Or.inr ⟨hit.ne_nil, List.head?_append_of_ne_nil _ hit.ne_nil⟩
  | sibling f g C a o n p b rc q es hit hf he hfit =>
      have hframe : AllNodes Loose (f.fill (.node a 1 p [])) := AllNodes.focus (C := g :: C) h
      have hmem : (b, Trie.node o rc q es) ∈ f.left ++ f.right := by simp [he]
      have hchild : AllNodes Loose (.node o rc q es) :=
        hframe.child (b, .node o rc q es) (by
          simp only [Frame.fill, Trie.edges_node, List.mem_append, List.mem_cons]
          exact (List.mem_append.mp hmem).imp id Or.inr)
      have hne : f.bytes ≠ [] := fun hn => List.cons_ne_nil _ _ ((frame_nil_iff hroot (sound_of_loose h)).mp hn)
      refine ⟨loose_replace (t := f.fill (.node a 1 p [])) h
        (loose_edges hchild (by rwa [List.length_append])) ?_, root_replace (t := f.fill _) hroot (by simp)⟩
      exact Or.inr ⟨hne, List.head?_append_of_ne_nil _ hne⟩
  | edge f C a n p hit hn =>
      have hframe : AllNodes Loose (f.fill (.node a 1 p [])) := AllNodes.focus (C := C) h
      have hsub : (swapRemove f.left.length (f.left ++ (f.label, .node a 0 p []) :: f.right)).Perm
          (f.left ++ f.right) := swapRemove_perm f.left _ f.right
      have hmem (e : UInt8 × Trie Addr) (he : e ∈ f.left ++ f.right) :
          e ∈ (f.fill (.node a 1 p [])).edges := by
        simp only [Frame.fill, Trie.edges_node, List.mem_append, List.mem_cons]
        exact (List.mem_append.mp he).imp id Or.inr
      refine ⟨loose_replace (t := f.fill (.node a 1 p [])) h (.node ⟨fun e he => ?_, hframe.here.short, fun c => ?_⟩
        (fun e he => hframe.child e (hmem e (hsub.subset he)))) ?_, root_replace (t := f.fill _) hroot (fun _ => rfl)⟩
      · exact hframe.here.first e (hmem e (hsub.subset he))
      · have hc := hframe.here.pairs c
        rw [Frame.fill, Trie.edges_node, labels_append, labels_cons, List.count_append, List.count_cons] at hc
        rw [Trie.edges_node, labels, (hsub.map Prod.fst).count_eq, ← labels, labels_append, List.count_append]
        omega
      · by_cases hC : C = []
        · exact Or.inl hC
        · exact Or.inr ⟨fun hn => hC ((frame_nil_iff hroot (sound_of_loose h)).mp hn), rfl⟩

/-- An allocation that no machine can serve, or an access outside of a block. -/
def Escapes (e : Fault) : Prop := e = .outOfMemory ∨ e = .outOfBounds

theorem escapes_tolerates : Tolerates Escapes := ⟨Or.inl rfl, Or.inr rfl⟩

/-- What every reachable state satisfies: a loose tree, next to blocks it has lost. -/
def Upright (t : RadixTree) (m : Mem Block) : Prop :=
  ∃ T F, AllNodes Loose T ∧ T.bytes = [] ∧ t.root = T.tag ∧ Holds (cells T + F) m

section Calls

variable {A : Allocator Block} (t : RadixTree) (b : Buffer)

theorem insert_upright :
    Spec (Upright t) (insert A t b.bytes b.size) (fun r => Upright r.2) Escapes := by
  obtain ⟨root, w⟩ := t
  rintro m ⟨T, F, h, hroot, rfl, hm⟩
  refine Spec.post (insert_spec b.size_pos b.size_le hroot (sound_of_loose h) (Or.inr escapes_tolerates)) ?_ m hm
  rintro r m ⟨T', F', hg, hr, hm⟩
  obtain ⟨h', hroot'⟩ := loose_grows hg h hroot
  exact ⟨T', F', h', hroot', by rw [hr], hm⟩

theorem erase_upright :
    Spec (Upright t) (erase A t b.bytes b.size) (fun r => Upright r.2) Escapes := by
  obtain ⟨root, w⟩ := t
  rintro m ⟨T, F, h, hroot, rfl, hm⟩
  refine Spec.post (erase_spec b.size_pos b.size_le hroot (sound_of_loose h) (Or.inr escapes_tolerates.bounds)
    (Or.inr escapes_tolerates.bounds)) ?_ m hm
  rintro r m ⟨T', hs, hr, hm⟩
  obtain ⟨h', hroot'⟩ := loose_shrinks hs h hroot
  exact ⟨T', F, h', hroot', by rw [hr], hm⟩

theorem contains_upright : Spec (Upright t) (contains t b.bytes b.size) (fun _ => Upright t) Escapes := by
  obtain ⟨root, w⟩ := t
  rintro m ⟨T, F, h, hroot, rfl, hm⟩
  refine Spec.post (contains_spec b.size_pos b.size_le (sound_of_loose h) (Or.inr escapes_tolerates.bounds)) ?_ m hm
  rintro r m ⟨hm, -⟩
  exact ⟨T, F, h, hroot, rfl, hm⟩

end Calls

theorem runCalls_upright (A : Allocator Block) (calls : List Call) :
    Spec (Holds 0) (runCalls A calls) Upright Escapes := by
  rw [runCalls]
  refine spec_bind ((radixTree_spec A).mono (fun _ h => h) (fun _ _ h => h) (fun _ h => h.elim)) (fun t => ?_)
  rintro m ⟨⟨a, rc, p, es⟩, hT, rfl, hm⟩
  refine spec_foldlM (I := fun _ => Upright) calls ?_ m ?_
  · intro pre c _ t
    cases c with
    | insert b => exact spec_bind (insert_upright t b) (fun r => spec_pure (fun _ h => h))
    | erase b => exact spec_bind (erase_upright t b) (fun r => spec_pure (fun _ h => h))
  · obtain rfl : p = [] := congrArg Trie.bytes hT
    obtain rfl : es = [] := by
      have hlen := congrArg (fun t => t.edges.length) hT
      simpa [forget, emptyTree, forgetEdges_length] using hlen
    exact ⟨.node a rc [] [], 0, .node ⟨by simp [First], by simp, by simp [labels]⟩ (by simp), rfl, rfl,
      by rwa [add_zero]⟩

theorem run_upright (A : Allocator Block) (ops : List Op) : Spec (Holds 0) (run A ops) Upright Escapes := by
  rw [run_eq_runCalls]
  exact runCalls_upright A _

theorem not_assertion {γ : Type} {P : Mem Block → Prop} {x : NodeM γ} {Q : γ → Mem Block → Prop}
    (h : Spec P x Q Escapes) {m : Mem Block} (hm : P m) : x m ≠ .error .assertion := by
  intro hx
  have he := h m hm
  rw [hx] at he
  rcases he with he | he <;> cases he

/-- No assertion fires, in a history or in a call after it, however long the keys
are; and with short keys nothing else goes wrong either. -/
theorem assertions_hold (A : Allocator Block) (ops : List Op) :
    run A ops emptyMem ≠ .error .assertion ∧
      (∀ t m, run A ops emptyMem = .ok (t, m) → ∀ k : Key, insert A t k.buffer k.size m ≠ .error .assertion ∧
        erase A t k.buffer k.size m ≠ .error .assertion ∧ contains t k.buffer k.size m ≠ .error .assertion) ∧
      (ShortKeys ops → ∃ t m, run A ops emptyMem = .ok (t, m)) := by
  refine ⟨not_assertion (run_upright A ops) holds_empty, fun t m hrun k => ?_, fun h => ?_⟩
  · have hm : Upright t m := by
      have h := run_upright A ops emptyMem holds_empty
      rwa [hrun] at h
    exact ⟨not_assertion (insert_upright t (terminated k)) hm, not_assertion (erase_upright t (terminated k)) hm,
      not_assertion (contains_upright t (terminated k)) hm⟩
  · obtain ⟨T, m, hrun, -⟩ := run_reaches A h
    exact ⟨_, m, hrun⟩

end StudyNotes.Radix.Assertions
