import StudyNotes.Radix.Refine

namespace StudyNotes.Radix.Runs

open Heap.Program Heap.Triple Node NodeSpec Program KeyTree KeyTreeCases KeyTreeMultiset KeyTreeShape KeyTreeCount
open Context PlacedShape Refine

inductive Op
  | insert (k : Key)
  | erase (k : Key)

def step (A : Allocator Block) (t : RadixTree) : Op → NodeM (Bool × RadixTree)
  | .insert k => insert A t k.buffer k.size
  | .erase k => erase A t k.buffer k.size

/-- A history of calls on a new radix_tree. -/
def run (A : Allocator Block) (ops : List Op) : NodeM RadixTree := do
  let t ← radixTree A
  ops.foldlM (fun t op => do
    let r ← step A t op
    return r.2) t

/-- A buffer and the length of the key in it. What follows the key is arbitrary. -/
structure Buffer where
  bytes : List UInt8
  size : Nat
  size_pos : 0 < size
  size_le : size ≤ bytes.length

inductive Call
  | insert (b : Buffer)
  | erase (b : Buffer)

def callStep (A : Allocator Block) (t : RadixTree) : Call → NodeM (Bool × RadixTree)
  | .insert b => insert A t b.bytes b.size
  | .erase b => erase A t b.bytes b.size

/-- A history of calls whose keys need not be terminated. -/
def runCalls (A : Allocator Block) (calls : List Call) : NodeM RadixTree := do
  let t ← radixTree A
  calls.foldlM (fun t c => do
    let r ← callStep A t c
    return r.2) t

def terminated (k : Key) : Buffer := ⟨k.buffer, k.size, k.size_pos, k.size_le⟩

def Op.call : Op → Call
  | .insert k => .insert (terminated k)
  | .erase k => .erase (terminated k)

theorem run_eq_runCalls (A : Allocator Block) (ops : List Op) : run A ops = runCalls A (ops.map Op.call) := by
  have hstep (t : RadixTree) (op : Op) : step A t op = callStep A t op.call := by cases op <;> rfl
  simp only [run, runCalls, List.foldlM_map, hstep]

/-- The abstract tree and the value of size_. -/
structure Abstract where
  tree : Trie Unit
  size : UInt64

def Abstract.step (s : Abstract) : Op → Abstract
  | .insert k => ⟨insertKey k.bytes s.tree, s.size + 1⟩
  | .erase k => ⟨eraseKey k.bytes s.tree, if countOf k.bytes s.tree ≠ 0 then s.size - 1 else s.size⟩

def abstractRun (ops : List Op) : Abstract := ops.foldl Abstract.step ⟨emptyTree, 0⟩

def ledgerStep (M : Multiset (List UInt8)) : Op → Multiset (List UInt8)
  | .insert k => k.bytes ::ₘ M
  | .erase k => M.erase k.bytes

/-- The multiset of keys that a history leaves. -/
def ledger (ops : List Op) : Multiset (List UInt8) := ops.foldl ledgerStep 0

/-- Every inserted key is shorter than 2^32 bytes. -/
def ShortKeys (ops : List Op) : Prop := ∀ k, Op.insert k ∈ ops → k.size < 2 ^ 32

/-- No header field overflows: all inserted keys are short, and no key ever has
2^32 live copies. -/
structure Limits (ops : List Op) : Prop where
  short : ShortKeys ops
  copies : ∀ pre, pre <+: ops → ∀ k, (ledger pre).count k < 2 ^ 32

theorem abstractRun_concat (ops : List Op) (op : Op) :
    abstractRun (ops ++ [op]) = (abstractRun ops).step op := by
  simp [abstractRun]

theorem ledger_concat (ops : List Op) (op : Op) : ledger (ops ++ [op]) = ledgerStep (ledger ops) op := by
  simp [ledger]

theorem run_concat (A : Allocator Block) (ops : List Op) (op : Op) :
    run A (ops ++ [op]) = run A ops >>= fun t => step A t op >>= fun r => pure r.2 := by
  simp [run, List.foldlM_append]

theorem ShortKeys.of_prefix {pre ops : List Op} (h : ShortKeys ops) (hpre : pre <+: ops) : ShortKeys pre :=
  fun k hk => h k (hpre.subset hk)

theorem Limits.of_prefix {pre ops : List Op} (h : Limits ops) (hpre : pre <+: ops) : Limits pre :=
  ⟨h.short.of_prefix hpre, fun pre' hpre' => h.copies pre' (hpre'.trans hpre)⟩

theorem root_inserts {k : List UInt8} {t t' : Trie Unit} (hk : k ≠ []) (hi : Inserts k t t')
    (ht : t.bytes = []) : t'.bytes = [] ∧ t'.refcount = t.refcount := by
  cases hi with
  | copy => exact absurd ht hk
  | edge | descend => exact ⟨ht, rfl⟩
  | inside | fork => simp at ht

theorem root_removes {k : List UInt8} {t t' : Trie Unit} (hk : k ≠ []) (hr : Removes true k t t')
    (ht : t.bytes = []) : t'.bytes = [] ∧ t'.refcount = t.refcount := by
  cases hr with
  | copy | branch | merge => exact absurd ht hk
  | descend | edge => exact ⟨ht, rfl⟩

theorem erase_cases {t : Trie Unit} (ht : t.bytes = []) (k : Key) :
    (countOf k.bytes t = 0 ∧ eraseKey k.bytes t = t) ∨
      (countOf k.bytes t ≠ 0 ∧ Removes true k.bytes t (eraseKey k.bytes t)) := by
  by_cases h : countOf k.bytes t = 0
  · exact Or.inl ⟨h, eraseKey_missing h⟩
  · exact Or.inr ⟨h, eraseAt_root ht k.ne_nil h⟩

theorem canon_emptyTree : Canon Short emptyTree where
  shaped := .node ⟨by simp, by simp [labels]⟩ (by simp)
  root := rfl
  within := .node (by simp [Short]) (by simp)

theorem canon_step {s : Abstract} (hs : Canon Short s.tree) (op : Op)
    (hop : ∀ k, op = .insert k → k.size < 2 ^ 32) : Canon Short (s.step op).tree := by
  cases op with
  | insert k =>
      have hi := insertKey_inserts s.tree k.bytes
      exact ⟨shaped_inserts hi hs.shaped, (root_inserts k.ne_nil hi hs.root).1,
        within_inserts short_closed hi hs.within ⟨hop k rfl, k.no_zero⟩⟩
  | erase k =>
      rcases erase_cases hs.root k with ⟨-, he⟩ | ⟨-, hr⟩
      · rw [Abstract.step, he]
        exact hs
      · exact ⟨shaped_removes hr hs.shaped, (root_removes k.ne_nil hr hs.root).1, within_removes hr hs.within⟩

theorem canon_run {ops : List Op} (h : ShortKeys ops) : Canon Short (abstractRun ops).tree := by
  induction ops using List.reverseRecOn with
  | nil => exact canon_emptyTree
  | append_singleton ops op ih =>
      rw [abstractRun_concat]
      refine canon_step (ih (h.of_prefix (List.prefix_append _ _))) op ?_
      rintro k rfl
      exact h k (by simp)

theorem root_run (ops : List Op) : (abstractRun ops).tree.bytes = [] ∧ (abstractRun ops).tree.refcount = 0 := by
  induction ops using List.reverseRecOn with
  | nil => exact ⟨rfl, rfl⟩
  | append_singleton ops op ih =>
      rw [abstractRun_concat]
      cases op with
      | insert k =>
          have h := root_inserts k.ne_nil (insertKey_inserts (abstractRun ops).tree k.bytes) ih.1
          exact ⟨h.1, h.2.trans ih.2⟩
      | erase k =>
          rcases erase_cases ih.1 k with ⟨-, he⟩ | ⟨-, hr⟩
          · rw [Abstract.step, he]
            exact ih
          · have h := root_removes k.ne_nil hr ih.1
            exact ⟨h.1, h.2.trans ih.2⟩

/-- The abstract tree holds the keys of the ledger, and branches wherever a node
holds no key. -/
structure Agrees (s : Abstract) (M : Multiset (List UInt8)) : Prop where
  keys : keys s.tree = M
  branches : AllNodes Branches s.tree
  size : s.size = UInt64.ofNat (Multiset.card M)

theorem agrees_run {ops : List Op} (h : Limits ops) : Agrees (abstractRun ops) (ledger ops) := by
  induction ops using List.reverseRecOn with
  | nil => exact ⟨by simp [abstractRun, emptyTree, ledger, KeyTree.keys, edgesKeys],
      .node (by simp [Branches]) (by simp), rfl⟩
  | append_singleton ops op ih =>
      have hs := ih (h.of_prefix (List.prefix_append _ _))
      have hcanon := canon_run (h.short.of_prefix (List.prefix_append _ _))
      rw [abstractRun_concat, ledger_concat]
      cases op with
      | insert k =>
          have hi := insertKey_inserts (abstractRun ops).tree k.bytes
          have hcount : (KeyTree.keys (abstractRun ops).tree).count k.bytes + 1 < 2 ^ 32 := by
            have hc := h.copies _ (List.prefix_refl _) k.bytes
            rw [ledger_concat, ledgerStep, Multiset.count_cons_self] at hc
            rwa [hs.keys]
          refine ⟨?_, ?_, ?_⟩
          · rw [ledgerStep, ← hs.keys]
            exact keys_inserts hi hcount
          · exact (branches_inserts hi hcount hs.branches (fun hb => absurd hcanon.root hb)).1
          · rw [ledgerStep, Multiset.card_cons, Abstract.step, hs.size, UInt64.ofNat_add]
            rfl
      | erase k =>
          rcases erase_cases hcanon.root k with ⟨h0, he⟩ | ⟨h0, hr⟩
          · have hnot : k.bytes ∉ ledger ops := by
              rw [← hs.keys, mem_keys_iff hcanon.shaped]
              exact fun hn => hn h0
            rw [ledgerStep, Multiset.erase_of_notMem hnot, Abstract.step, he, if_neg (fun hn => hn h0)]
            exact hs
          · have hmem : k.bytes ∈ ledger ops := by
              rw [← hs.keys, mem_keys_iff hcanon.shaped]
              exact h0
            have hcard := Multiset.card_erase_add_one hmem
            refine ⟨?_, (branches_removes hr hs.branches).1, ?_⟩
            · have hk := keys_removes hr
              rw [hs.keys] at hk
              rw [ledgerStep, hk, Multiset.erase_cons_head]
              rfl
            · rw [ledgerStep, Abstract.step, if_pos h0, hs.size, ← hcard, UInt64.ofNat_add]
              exact UInt64.add_sub_cancel _ _

theorem radixTree_spec (A : Allocator Block) :
    Spec (Holds 0) (radixTree A)
      (fun t m => ∃ T, forget T = emptyTree ∧ t = ⟨T.tag, 0⟩ ∧ Holds (cells T) m) (fun _ => False) := by
  rw [radixTree]
  have hs : headerSize ≤ blockSize 0 0 ∧ blockSize 0 0 ≤ maxRequest := blockSize_small (by decide) (by decide)
  apply spec_makeNode (Or.inl hs.1) (Or.inl hs.2)
  intro _ _ x g
  refine spec_pure (fun m hm => ⟨.node x 0 [] [], rfl, rfl, ?_⟩)
  simpa [cells, edgesCells, slots, u32] using hm

/-- What a memory must be for the pointer program to stand at an abstract state. -/
def Realizes (s : Abstract) (t : RadixTree) (m : Mem Block) : Prop :=
  ∃ T, forget T = s.tree ∧ t = ⟨T.tag, s.size⟩ ∧ Holds (cells T) m

theorem step_refines {A : Allocator Block} {s : Abstract} (hs : Canon Short s.tree) (op : Op)
    (hop : ∀ k, op = .insert k → k.size < 2 ^ 32) (t : RadixTree) :
    Spec (Realizes s t) (step A t op >>= fun r => pure r.2) (Realizes (s.step op)) (fun _ => False) := by
  rintro m ⟨T, hT, rfl, hm⟩
  have hcanon : Canon Short T := canon_of_forget (by rw [hT]; exact hs)
  rw [← add_zero (cells T)] at hm
  cases op with
  | insert k =>
      refine spec_bind (insert_refines hcanon k (hop k rfl)) (fun r => ?_) m hm
      rintro m ⟨T', hT', rfl, hm⟩
      rw [add_zero] at hm
      exact ⟨T', by rw [hT', hT]; rfl, rfl, hm⟩
  | erase k =>
      refine spec_bind (erase_refines hcanon k) (fun r => ?_) m hm
      rintro m ⟨T', hT', rfl, -, hm⟩
      rw [add_zero] at hm
      exact ⟨T', by rw [hT', hT]; rfl, by rw [hT]; rfl, hm⟩

/-- With short keys the pointer program never faults, and it refines the abstract
one: all of its memory is the placed abstract tree. -/
theorem run_refines (A : Allocator Block) {ops : List Op} (h : ShortKeys ops) :
    Spec (Holds 0) (run A ops) (Realizes (abstractRun ops)) (fun _ => False) := by
  rw [run]
  refine spec_bind (radixTree_spec A) (fun t => ?_)
  refine Spec.mono (spec_foldlM (I := fun pre => Realizes (abstractRun pre)) ops ?_) (fun _ h => h) (fun _ _ h => h)
    (fun _ h => h)
  intro pre op hpre t
  rw [abstractRun_concat]
  refine step_refines (canon_run (h.of_prefix ((List.prefix_append _ _).trans hpre))) op ?_ t
  rintro k rfl
  exact h k (hpre.subset (by simp))

theorem run_reaches (A : Allocator Block) {ops : List Op} (h : ShortKeys ops) :
    ∃ T m, run A ops emptyMem = .ok (⟨T.tag, (abstractRun ops).size⟩, m) ∧ forget T = (abstractRun ops).tree ∧
      Canon Short T ∧ Holds (cells T) m := by
  obtain ⟨t, m, hrun, T, hT, rfl, hm⟩ := (run_refines A h emptyMem holds_empty).exists_ok
  exact ⟨T, m, hrun, hT, canon_of_forget (by rw [hT]; exact canon_run h), hm⟩

theorem run_step {A : Allocator Block} {ops : List Op} {op : Op} {t t' : RadixTree} {m m' : Mem Block} {b : Bool}
    (hrun : run A ops emptyMem = .ok (t, m)) (hstep : step A t op m = .ok ((b, t'), m')) :
    run A (ops ++ [op]) emptyMem = .ok (t', m') := by
  rw [run_concat]
  change Except.bind (run A ops emptyMem) _ = _
  rw [hrun]
  change Except.bind (step A t op m) _ = _
  rw [hstep]
  rfl

def Op.inserts (s : List UInt8) : Op → Bool
  | .insert k => decide (k.bytes = s)
  | .erase _ => false

theorem count_ledger_le (ops : List Op) (s : List UInt8) : (ledger ops).count s ≤ ops.countP (Op.inserts s) := by
  induction ops using List.reverseRecOn with
  | nil => simp [ledger]
  | append_singleton ops op ih =>
      rw [ledger_concat, List.countP_append]
      cases op with
      | insert k =>
          rw [ledgerStep, Multiset.count_cons]
          by_cases hk : k.bytes = s
          · simp [Op.inserts, hk, ih]
          · simp [Op.inserts, hk, Ne.symm hk, ih]
      | erase k => exact ((Multiset.count_le_of_le s (Multiset.erase_le _ _)).trans ih).trans (Nat.le_add_right _ _)

theorem limits_of_inserts {ops : List Op} (hshort : ShortKeys ops)
    (h : ∀ s, ops.countP (Op.inserts s) < 2 ^ 32) : Limits ops :=
  ⟨hshort, fun pre hpre s =>
    ((count_ledger_le pre s).trans (List.Sublist.countP_le hpre.sublist)).trans_lt (h s)⟩

theorem limits_of_length {ops : List Op} (hshort : ShortKeys ops) (h : ops.length < 2 ^ 32) : Limits ops :=
  limits_of_inserts hshort (fun _ => List.countP_le_length.trans_lt h)

/-- A history that splits a node and merges it again. -/
def demo : List Op :=
  [.insert ⟨[97, 98], by decide, by decide⟩, .insert ⟨[97], by decide, by decide⟩,
    .erase ⟨[97, 98], by decide, by decide⟩]

theorem demo_limits : Limits demo := by
  refine limits_of_length (fun k hk => ?_) (by decide)
  simp only [demo, List.mem_cons, Op.insert.injEq, reduceCtorEq, List.not_mem_nil, or_false] at hk
  rcases hk with rfl | rfl <;> decide

end StudyNotes.Radix.Runs
