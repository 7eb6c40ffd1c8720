import StudyNotes.Radix.LongKeys

namespace StudyNotes.Radix.ReachableHeaps

open Heap.Program Heap.Triple Node Program KeyTree KeyTreeCases KeyTreeMultiset KeyTreeShape KeyTreeCount Context
open MatchSpec PlacedShape Refine Runs HeapShape Traversal LongKeys

theorem branches_of_forget {T : Trie Addr} (h : AllNodes Branches (forget T)) : AllNodes Branches T := by
  refine allNodes_of_forget (fun t ht e he => ?_) h
  have hfull := ht (e.1, forget e.2) (by rw [forget_edges]; exact mem_forgetEdges he)
  rwa [Full, forget_refcount, forget_edges, forgetEdges_length] at hfull

/-- Within the limits every state reached satisfies the representation invariant. -/
theorem repInv_run (A : Allocator Block) (ops : List Op) (h : Limits ops) :
    ∀ pre, pre <+: ops → ∃ t m, run A pre emptyMem = .ok (t, m) ∧ RepInv t.root m := by
  intro pre hpre
  have hpre := h.of_prefix hpre
  obtain ⟨T, m, hrun, hT, hcanon, hm⟩ := run_reaches A hpre.short
  refine ⟨_, m, hrun, repInv_of_holds (F := 0) (by rwa [add_zero]) hcanon.shaped hcanon.root ?_ ?_⟩
  · rw [← forget_refcount, hT]
    exact (root_run pre).2
  · apply branches_of_forget
    rw [hT]
    exact (agrees_run hpre).branches

theorem repInv_run_demo : ∃ t m, run moving demo emptyMem = .ok (t, m) ∧ RepInv t.root m :=
  repInv_run moving demo demo_limits demo (List.prefix_refl _)

theorem stub_not_repInv {a x : Addr} {y : UInt8} {m : Mem Block} (hm : Holds (cells (stub a x y)) m) :
    ¬RepInv a m := by
  intro h
  have hm0 : Holds (cells (stub a x y) + 0) m := by rwa [add_zero]
  have hsub : plug [⟨a, 0, [], [], y, []⟩] (.node x 1 [] []) = stub a x y := rfl
  have hne : x ≠ a := by
    have hnodup := hm.nodup
    rintro rfl
    simp [stub, cells, edgesCells] at hnodup
  obtain ⟨b, hb, hp⟩ := h.nonempty x (reaches_of_sub hm0 hsub) hne
  have hb' := lookup_sub hm0 hsub
  rw [Trie.tag_node, hb, Option.some.injEq] at hb'
  rw [hb'] at hp
  exact hp rfl

theorem repInv_fails {n : Nat} (h : u32 (n + 1) = 0) (hbig : n + 1 < 2 ^ 62) :
    ∃ k : Key, k.size = n + 1 ∧ ∃ t m, run moving [.insert k] emptyMem = .ok (t, m) ∧ ¬RepInv t.root m := by
  have hk := unary_size 97 (by decide) n
  obtain ⟨a, x, y, m, hrun, -, hm⟩ := run_long moving (unary 97 (by decide) n) (by rwa [hk]) (by rwa [hk])
  exact ⟨_, hk, _, m, hrun, stub_not_repInv hm⟩

/-- A key of length 2^32 gets a leaf with an empty prefix. -/
theorem repInv_fails_long :
    ∃ k : Key, k.size = 2 ^ 32 ∧ ∃ t m, run moving [.insert k] emptyMem = .ok (t, m) ∧ ¬RepInv t.root m :=
  repInv_fails (n := 2 ^ 32 - 1) (by decide) (by omega)

/-- With short keys the live blocks always are exactly the tree of the abstract
run, and the destructor gives every one of them back. -/
theorem heap_refines (A : Allocator Block) (ops : List Op) (h : ShortKeys ops) :
    ∀ pre, pre <+: ops → ∃ t m, run A pre emptyMem = .ok (t, m) ∧ TreeShaped t.root m ∧
      readOff m t.root = some (abstractRun pre).tree ∧
      ∃ m', freeNodes m.cells.keys.card t.root m = .ok ((), m') ∧ m'.cells = ∅ := by
  intro pre hpre
  obtain ⟨T, m, hrun, hT, hcanon, hm⟩ := run_reaches A (h.of_prefix hpre)
  refine ⟨_, m, hrun, treeShaped_of_holds hm, ?_, ?_⟩
  · rw [← hT]
    exact readOff_holds hm
  · have hfree : Spec (Holds (cells T + 0)) (freeNodes m.cells.keys.card T.tag >>= pure)
        (fun _ => Holds 0) (fun _ => False) := by
      refine spec_freeNodes _ ?_ (spec_pure (fun _ h => h))
      rw [← Finset.card_val, holds_keys hm, Multiset.card_map]
      exact height_le_card T
    rw [bind_pure] at hfree
    obtain ⟨u, m', hok, hm'⟩ := (hfree m (by rwa [add_zero])).exists_ok
    exact ⟨m', hok, holds_cells_eq holds_empty hm'⟩

theorem heap_refines_demo : ∃ t m, run moving demo emptyMem = .ok (t, m) ∧
    TreeShaped t.root m ∧ readOff m t.root = some (abstractRun demo).tree ∧
    ∃ m', freeNodes m.cells.keys.card t.root m = .ok ((), m') ∧ m'.cells = ∅ :=
  heap_refines moving demo demo_limits.short demo (List.prefix_refl _)

theorem leak_not_treeShaped {T : Trie Addr} {F : Multiset (Addr × Block)} {m : Mem Block}
    (hm : Holds (cells T + F) m) {c : Addr × Block} (hc : c ∈ F) : ¬TreeShaped T.tag m := by
  intro h
  have hlive : c.1 ∈ m.cells := Finmap.mem_iff.mpr ⟨c.2, hm.lookup (Multiset.mem_add.mpr (Or.inr hc))⟩
  obtain ⟨C, t, rfl, htag⟩ := sub_of_reaches hm ((h.reachable c.1).mp hlive)
  have hnodup := hm.nodup
  rw [Multiset.map_add, Multiset.nodup_add] at hnodup
  refine Multiset.disjoint_left.mp hnodup.2.2 ?_ (Multiset.mem_map_of_mem Prod.fst hc)
  rw [← htag]
  exact Multiset.mem_map_of_mem Prod.fst (mem_cells_plug C t)

theorem run_leaks {k k' : Key} {y : UInt8} (hk : u32 k.size = 0) (hbig : k.size < 2 ^ 62)
    (hy : k.bytes.head? = some y) (hy' : k'.bytes.head? = some y) (hbig' : k'.size < 2 ^ 62) :
    ∃ t m, run moving [.insert k, .insert k'] emptyMem = .ok (t, m) ∧ ¬TreeShaped t.root m := by
  obtain ⟨a, x, z, m, hrun, hz, hm⟩ := run_long moving k hk hbig
  obtain rfl : y = z := by rwa [hy, Option.some.injEq] at hz
  obtain ⟨r, m', hins, a', x', y', l, rfl, hm'⟩ := (insert_after_long k' hy' hbig' a x m hm).exists_ok
  exact ⟨_, m', run_step hrun hins, leak_not_treeShaped hm' (Multiset.mem_cons_self _ _)⟩

theorem unary_leaks {n : Nat} (h : u32 (n + 1) = 0) (hbig : n + 1 < 2 ^ 62) :
    ∃ k : Key, k.size = n + 1 ∧ ∃ t m, run moving [.insert k, .insert ⟨[97], by decide, by decide⟩] emptyMem =
      .ok (t, m) ∧ ¬TreeShaped t.root m := by
  have hk := unary_size 97 (by decide) n
  exact ⟨_, hk, run_leaks (y := 97) (by rwa [hk]) (by rwa [hk]) rfl rfl (by decide)⟩

/-- After a key of length 2^32 the next insert replaces the root and leaks the old one. -/
theorem root_leaks_long :
    ∃ k : Key, k.size = 2 ^ 32 ∧ ∃ t m, run moving [.insert k, .insert ⟨[97], by decide, by decide⟩] emptyMem =
      .ok (t, m) ∧ ¬TreeShaped t.root m :=
  unary_leaks (n := 2 ^ 32 - 1) (by decide) (by omega)

mutual

/-- The sum of the refcounts of a tree's nodes. -/
def refs : Trie Unit → Nat
  | .node _ rc _ es => rc.toNat + edgesRefs es

def edgesRefs : Edges Unit → Nat
  | [] => 0
  | (_, t) :: es => refs t + edgesRefs es

end

theorem card_keys (t : Trie Unit) : Multiset.card (keys t) = refs t := by
  induction t using tree_induct with
  | h a rc p es ih =>
      have hedges : Multiset.card (edgesKeys es) = edgesRefs es := by
        induction es with
        | nil => simp [edgesKeys, edgesRefs]
        | cons e es ihes =>
            obtain ⟨b, t⟩ := e
            rw [edgesKeys_cons, Multiset.card_add, edgesRefs, ih (b, t) List.mem_cons_self,
              ihes (fun e he => ih e (List.mem_cons_of_mem _ he))]
      simp [keys, refs, hedges]

/-- Within the limits of the counters size_ is the sum of all refcounts, and a key
is contained right after its insertion. -/
theorem no_key_lost (A : Allocator Block) (ops : List Op) (h : Limits ops)
    (hsize : ∀ pre, pre <+: ops → Multiset.card (ledger pre) < 2 ^ 64) :
    ∀ pre, pre <+: ops → ∃ t m T, run A pre emptyMem = .ok (t, m) ∧
      readOff m t.root = some T ∧ t.size.toNat = refs T ∧
      ∀ k pre', pre = pre' ++ [.insert k] → ∃ m', contains t k.buffer k.size m = .ok (true, m') := by
  intro pre hpre
  have hlim := h.of_prefix hpre
  have hagrees := agrees_run hlim
  obtain ⟨T, m, hrun, hT, hcanon, hm⟩ := run_reaches A hlim.short
  refine ⟨_, m, _, hrun, readOff_holds hm, ?_, ?_⟩
  · change (abstractRun pre).size.toNat = _
    rw [hT, ← card_keys, hagrees.keys, hagrees.size, UInt64.toNat_ofNat', Nat.mod_eq_of_lt (hsize pre hpre)]
  · rintro k pre' rfl
    obtain ⟨b, m', hc, hb, -⟩ := (contains_refines (F := 0) hcanon k m (by rwa [add_zero])).exists_ok
    refine ⟨m', ?_⟩
    have hmem : k.bytes ∈ keys (abstractRun (pre' ++ [.insert k])).tree := by
      rw [hagrees.keys, ledger_concat]
      exact Multiset.mem_cons_self _ _
    rw [mem_keys_iff (canon_run hlim.short).shaped] at hmem
    rw [hc, hb, hT, decide_eq_true hmem]

theorem card_ledger_le (ops : List Op) : Multiset.card (ledger ops) ≤ ops.length := by
  induction ops using List.reverseRecOn with
  | nil => simp [ledger]
  | append_singleton ops op ih =>
      rw [ledger_concat, List.length_append]
      cases op with
      | insert k => simpa [ledgerStep] using ih
      | erase k => exact ((Multiset.card_le_card (Multiset.erase_le _ _)).trans ih).trans (Nat.le_add_right _ _)

theorem no_key_lost_demo : ∃ t m T, run moving (demo.take 2) emptyMem = .ok (t, m) ∧
    readOff m t.root = some T ∧ t.size.toNat = refs T ∧
    ∀ k pre', demo.take 2 = pre' ++ [.insert k] → ∃ m', contains t k.buffer k.size m = .ok (true, m') := by
  refine no_key_lost moving demo demo_limits (fun pre hpre => ?_) (demo.take 2) (List.take_prefix 2 demo)
  have hlen : pre.length ≤ 3 := hpre.length_le
  have hcard := card_ledger_le pre
  omega

theorem unary_lost {n : Nat} (h : u32 (n + 1) = 0) (hbig : n + 1 < 2 ^ 62) :
    ∃ k : Key, k.size = n + 1 ∧ ∃ t m m', run moving [.insert k] emptyMem = .ok (t, m) ∧
      contains t k.buffer k.size m = .ok (false, m') := by
  have hk := unary_size 97 (by decide) n
  obtain ⟨a, x, y, m, hrun, -, hm⟩ := run_long moving (unary 97 (by decide) n) (by rwa [hk]) (by rwa [hk])
  rw [← add_zero (cells _)] at hm
  obtain ⟨b, m', hc, rfl⟩ := (contains_blank (w := 1) (stub_blank a x y) (stub_sound a x y) _ m hm).exists_ok
  exact ⟨_, hk, _, m, m', hrun, hc⟩

/-- A key of length 2^32 is not contained after its insertion. -/
theorem key_lost_long :
    ∃ k : Key, k.size = 2 ^ 32 ∧ ∃ t m m', run moving [.insert k] emptyMem = .ok (t, m) ∧
      contains t k.buffer k.size m = .ok (false, m') :=
  unary_lost (n := 2 ^ 32 - 1) (by decide) (by omega)

end StudyNotes.Radix.ReachableHeaps
