import StudyNotes.Radix.ByteErase
import StudyNotes.Radix.BytePlacement
import StudyNotes.Radix.Traversal

namespace StudyNotes.Radix.ByteRuns

open Heap.Program Heap.Triple Heap.Bytes Heap.Mirror Heap.Placement
open KeyTree KeyTreeCount KeyTreeShape Context MatchSpec InsertStep EraseStep PlacedShape Refine Runs
open Layout LayoutEdits InPlaceEdits ByteMatch ByteInsert ByteErase BytePlacement
open Node (Block headerSize)
open Program (RadixTree)

def step (A : ByteAllocator) (t : RadixTree) : Op → ByteM (Bool × RadixTree)
  | .insert k => ByteTree.insert A t k.buffer k.size
  | .erase k => ByteTree.erase A t k.buffer k.size

/-- A history of calls on a new radix_tree whose nodes are bytes. -/
def run (A : ByteAllocator) (ops : List Op) : ByteM RadixTree := do
  let t ← ByteTree.radixTree A
  ops.foldlM (fun t op => do
    let r ← step A t op
    return r.2) t

section Calls

variable {A : ByteAllocator} {T : Trie Addr} {w : UInt64} {F : Multiset (Addr × List UInt8)}

theorem insert_refines (hT : Canon Short T) (hlow : ∀ x ∈ addresses T, x < 2 ^ 64) (k : Key) (hk : k.size < 2 ^ 32) :
    Spec (Holds (laid (cells T) + F)) (ByteTree.insert A ⟨T.tag, w⟩ k.buffer k.size)
      (fun r m => ∃ T', forget T' = insertKey k.bytes (forget T) ∧
        r = (decide (countOf k.bytes (forget T) = 0), ⟨T'.tag, w + 1⟩) ∧ Holds (laid (cells T') + F) m)
      (fun _ => False) := by
  have hsolid := solid_of_shaped hT.shaped
  refine Spec.post (ByteInsert.insert_spec k.size_pos k.size_le hk hT.root (canon_sound hT) hsolid hlow
    (canon_calm hT k hk)) ?_
  rintro ⟨b, t⟩ m ⟨T', hg, ht, hm⟩
  obtain ⟨-, hforget, hb⟩ := grows_pure hk hsolid hg
  rw [k.take_buffer] at hforget hb
  exact ⟨T', hforget, Prod.ext hb ht, hm⟩

theorem erase_refines (hT : Canon Short T) (hlow : ∀ x ∈ addresses T, x < 2 ^ 64) (k : Key) :
    Spec (Holds (laid (cells T) + F)) (ByteTree.erase A ⟨T.tag, w⟩ k.buffer k.size)
      (fun r m => ∃ T', forget T' = eraseKey k.bytes (forget T) ∧
        r = (decide (countOf k.bytes (forget T) ≠ 0),
          ⟨T'.tag, if countOf k.bytes (forget T) ≠ 0 then w - 1 else w⟩) ∧ Holds (laid (cells T') + F) m)
      (fun _ => False) := by
  have hz := canon_noZero hT
  refine Spec.post (ByteErase.erase_spec k.size_pos k.size_le hT.root (canon_sound hT) (not_endsInside hz k.bytes)
    (roomy_of_within (fun _ hs => hs.1) hT.within) hlow) ?_
  rintro ⟨b, t⟩ m ⟨T', hs, ht, hm⟩
  dsimp only at hs ht
  obtain ⟨hforget, hb⟩ := shrinks_pure k.size_le (fun _ _ _ _ h hs => stays_of_noZero hz h hs) hs
  rw [k.take_buffer] at hforget hb
  refine ⟨T', hforget, ?_, hm⟩
  rw [ht, hb]
  simp

theorem contains_gives (hT : Canon Short T) (hlow : ∀ x ∈ addresses T, x < 2 ^ 64) (hn : (addresses T).Nodup) (k : Key) :
    Gives (Holds (laid (cells T) + F)) (ByteTree.contains ⟨T.tag, w⟩ k.buffer k.size)
      (decide (countOf k.bytes (forget T) ≠ 0)) := by
  have hz := canon_noZero hT
  have hsound := canon_sound hT
  obtain ⟨C, t, i, j, hC, hstop, hmatch⟩ := matchKey_gives (F := F) k.size_pos k.size_le hsound hlow
    (not_endsInside hz k.bytes) w hn
  have hcount := stop_countOf k.size_le hstop (stays_of_noZero hz hC hstop)
  rw [k.take_buffer, hC] at hcount
  rw [countOf_forget, hcount]
  refine gives_bind hmatch ?_
  subst hC
  obtain ⟨a, rc, p, es⟩ := t
  have hb : (a, layout ⟨rc, p, slots es⟩) ∈ laid (cells (plug C (.node a rc p es))) + F := by
    rw [laid_focus]
    exact Multiset.mem_cons_self _ _
  refine gives_bind (gives_prefixLength hb (fits_of_sound (AllNodes.focus hsound).here))
    (gives_bind (gives_refcount hb) ?_)
  have hsame : decide (i = k.size ∧ j = p.length ∧ rc.toNat ≠ 0) =
      decide ((if i = k.size ∧ j = p.length then rc else 0) ≠ 0) := by
    rw [decide_eq_decide, ne_eq, toNat_eq_zero]
    by_cases h : i = k.size ∧ j = p.length
    · simp [h]
    · simp only [if_neg h, ne_eq, not_true_eq_false, iff_false]
      exact fun h' => h ⟨h'.1, h'.2.1⟩
  dsimp only [located]
  rw [Trie.bytes_node, Trie.refcount_node, ← hsame]
  exact gives_pure _

theorem radixTree_spec (A : ByteAllocator) :
    Spec (Holds 0) (ByteTree.radixTree A)
      (fun t m => ∃ T, forget T = emptyTree ∧ t = ⟨T.tag, 0⟩ ∧ Holds (laid (cells T)) m) (fun _ => False) := by
  rw [ByteTree.radixTree]
  refine spec_makeNode (by omega) (by omega) (fun x body hbody => ?_)
  obtain rfl : body = [] := List.length_eq_zero_iff.mp hbody
  refine spec_pure (fun m hm => ⟨.node x 0 [] [], rfl, rfl, ?_⟩)
  rw [cells, edgesCells, laid_cons]
  exact hm

end Calls

section Histories

variable {A : ByteAllocator} {room : Nat}

/-- The bytes hold an abstract state: they are the laid out nodes of its tree and
nothing else, at most k of them, and all of them where a pointer can lead. -/
def Stands (k : Nat) (s : Abstract) (t : RadixTree) (m : Mem (List UInt8)) : Prop :=
  ∃ T, forget T = s.tree ∧ t = ⟨T.tag, s.size⟩ ∧ Holds (laid (cells T)) m ∧ Below (2 ^ 64) m ∧
    m.cells.keys.card ≤ k

theorem addresses_low {T : Trie Addr} {m : Mem (List UInt8)} (hm : Holds (laid (cells T)) m) (hlow : Below (2 ^ 64) m) :
    ∀ x ∈ addresses T, x < 2 ^ 64 := by
  intro x hx
  apply hlow x
  rw [← Finmap.mem_keys, ← Finset.mem_val, holds_keys hm, laid_fst]
  exact hx

theorem addresses_nodup {T : Trie Addr} {m : Mem (List UInt8)} (hm : Holds (laid (cells T)) m) : (addresses T).Nodup := by
  rw [addresses, ← laid_fst]
  exact hm.nodup

/-- One call takes the bytes from one abstract state to the next. -/
theorem step_stands (hA : Confined A.toAllocator (2 ^ 64) room) {k : Nat} (hroom : k + 2 ≤ room) {s : Abstract}
    (hs : Canon Short s.tree) (op : Op) (hop : ∀ k, op = .insert k → k.size < 2 ^ 32) (t : RadixTree) :
    Spec (Stands k s t) (step A t op >>= fun r => pure r.2) (Stands (k + 2) (s.step op)) (fun _ => False) := by
  rintro m ⟨T, hT, rfl, hm, hlow, hcard⟩
  have hcanon : Canon Short T := canon_of_forget (by rw [hT]; exact hs)
  have haddr := addresses_low hm hlow
  have hm0 : Holds (laid (cells T) + 0) m := by rwa [add_zero]
  cases op with
  | insert key =>
      have hend := (makes_insert hA _ _ _).ends (insert_refines (w := s.size) hcanon haddr key (hop key rfl) m hm0)
        hlow (by omega)
      obtain ⟨r, m', hr, ⟨T', hT', rfl, hm'⟩, hlow', hcard'⟩ := hend.exists_ok
      change Ends (Except.bind (ByteTree.insert A _ key.buffer key.size m) _) _ _
      rw [hr]
      rw [add_zero] at hm'
      exact ⟨T', by rw [hT', hT]; rfl, rfl, hm', hlow', by omega⟩
  | erase key =>
      have hend := (makes_erase hA _ _ _).ends (erase_refines (w := s.size) hcanon haddr key m hm0) hlow (by omega)
      obtain ⟨r, m', hr, ⟨T', hT', rfl, hm'⟩, hlow', hcard'⟩ := hend.exists_ok
      change Ends (Except.bind (ByteTree.erase A _ key.buffer key.size m) _) _ _
      rw [hr]
      rw [add_zero] at hm'
      exact ⟨T', by rw [hT', hT]; rfl, by rw [hT]; rfl, hm', hlow', by omega⟩

/-- With short keys no call of a history faults on the bytes, and they hold the
abstract tree all along. -/
theorem run_stands (hA : Confined A.toAllocator (2 ^ 64) room) {ops : List Op} (h : ShortKeys ops)
    (hroom : 2 * ops.length + 1 ≤ room) :
    Spec (· = emptyMem) (run A ops) (Stands (2 * ops.length + 1) (abstractRun ops)) (fun _ => False) := by
  rw [run]
  refine spec_bind (Q := Stands 1 (abstractRun [])) ?_ (fun t => ?_)
  · rintro m rfl
    have hend := (makes_radixTree hA).ends (radixTree_spec A emptyMem holds_empty) below_empty
      (by rw [emptyMem, Finmap.keys_empty, Finset.card_empty]; omega)
    obtain ⟨t, m', ht, ⟨T, hT, rfl, hm'⟩, hlow, hcard⟩ := hend.exists_ok
    rw [ht]
    exact ⟨T, hT, rfl, hm', hlow, hcard⟩
  · refine Spec.mono (spec_foldlM (I := fun pre => Stands (2 * pre.length + 1) (abstractRun pre)) ops ?_)
      (fun _ h => h) (fun _ _ h => h) (fun _ h => h)
    intro pre op hpre t
    have hlen := hpre.length_le
    rw [List.length_append, List.length_singleton] at hlen ⊢
    rw [abstractRun_concat]
    refine step_stands hA (by omega) (canon_run (h.of_prefix ((List.prefix_append _ _).trans hpre))) op ?_ t
    rintro k rfl
    exact h k (hpre.subset (by simp))

theorem run_reaches (hA : Confined A.toAllocator (2 ^ 64) room) {ops : List Op} (h : ShortKeys ops)
    (hroom : 2 * ops.length + 1 ≤ room) :
    ∃ T m, run A ops emptyMem = .ok (⟨T.tag, (abstractRun ops).size⟩, m) ∧ forget T = (abstractRun ops).tree ∧
      Canon Short T ∧ Holds (laid (cells T)) m ∧ Below (2 ^ 64) m ∧ m.cells.keys.card ≤ 2 * ops.length + 1 := by
  obtain ⟨t, m, hrun, T, hT, rfl, hm, hlow, hcard⟩ := (run_stands hA h hroom emptyMem rfl).exists_ok
  exact ⟨T, m, hrun, hT, canon_of_forget (by rw [hT]; exact canon_run h), hm, hlow, hcard⟩

theorem run_concat (A : ByteAllocator) (ops : List Op) (op : Op) :
    run A (ops ++ [op]) = run A ops >>= fun t => step A t op >>= fun r => pure r.2 := by
  simp [run, List.foldlM_append]

theorem run_step {ops : List Op} {op : Op} {t t' : RadixTree} {m m' : Mem (List UInt8)} {b : Bool}
    (hrun : run A ops emptyMem = .ok (t, m)) (hstep : step A t op m = .ok ((b, t'), m')) :
    run A (ops ++ [op]) emptyMem = .ok (t', m') := by
  rw [run_concat]
  change Except.bind (run A ops emptyMem) _ = _
  rw [hrun]
  change Except.bind (step A t op m) _ = _
  rw [hstep]
  rfl

/-- The bytes reached by a history answer every call as the multiset of its keys. -/
structure ActsAs (A : ByteAllocator) (ops : List Op) (t : RadixTree) (m : Mem (List UInt8)) : Prop where
  contains : ∀ k : Key, ByteTree.contains t k.buffer k.size m = .ok (decide (0 < (ledger ops).count k.bytes), m)
  insert : ∀ k : Key, k.size < 2 ^ 32 → ∃ t' m', ByteTree.insert A t k.buffer k.size m =
    .ok ((decide ((ledger ops).count k.bytes = 0), t'), m') ∧ run A (ops ++ [.insert k]) emptyMem = .ok (t', m')
  erase : ∀ k : Key, ∃ t' m', ByteTree.erase A t k.buffer k.size m =
    .ok ((decide (0 < (ledger ops).count k.bytes), t'), m') ∧ run A (ops ++ [.erase k]) emptyMem = .ok (t', m')
  size : t.size.toNat = Multiset.card (ledger ops) % 2 ^ 64

/-- A history within the limits runs to its end on bytes, whatever addresses and
whatever garbage the allocator hands out, and the bytes then act as the multiset of
the keys inserted and not erased. -/
theorem bytes_act_as_ledger (A : ByteAllocator) (room : Nat) (hA : Confined A.toAllocator (2 ^ 64) room) (ops : List Op)
    (h : Limits ops) (hroom : 2 * ops.length + 1 ≤ room) : ∃ t m, run A ops emptyMem = .ok (t, m) ∧ ActsAs A ops t m := by
  obtain ⟨T, m, hrun, hT, hcanon, hm, hlow, hcard⟩ := run_reaches hA h.short hroom
  have haddr := addresses_low hm hlow
  have hagrees := agrees_run h
  have hcount (s : List UInt8) : (ledger ops).count s = (countOf s (forget T)).toNat := by
    rw [hT, ← hagrees.keys]
    exact count_keys _ s (canon_run h.short).shaped
  have hzero (s : List UInt8) : (ledger ops).count s = 0 ↔ countOf s (forget T) = 0 := by
    rw [hcount, toNat_eq_zero]
  have hpos (s : List UInt8) : 0 < (ledger ops).count s ↔ countOf s (forget T) ≠ 0 := by
    rw [Nat.pos_iff_ne_zero, ne_eq, hzero]
  have hm0 : Holds (laid (cells T) + 0) m := by rwa [add_zero]
  refine ⟨_, m, hrun, ?_, ?_, ?_, ?_⟩
  · intro k
    rw [contains_gives hcanon haddr (addresses_nodup hm) k m hm0]
    simp only [hpos]
  · intro k hk
    obtain ⟨r, m', hi, T', -, rfl, -⟩ := (insert_refines hcanon haddr k hk m hm0).exists_ok
    refine ⟨_, m', ?_, run_step hrun hi⟩
    rw [hi]
    simp only [hzero]
  · intro k
    obtain ⟨r, m', he, T', -, rfl, -⟩ := (erase_refines hcanon haddr k m hm0).exists_ok
    refine ⟨_, m', ?_, run_step hrun he⟩
    rw [he]
    simp only [hpos]
  · change (abstractRun ops).size.toNat = _
    rw [hagrees.size, UInt64.toNat_ofNat']

theorem bytes_act_as_ledger_demo :
    ∃ t m, run lowestBytes demo emptyMem = .ok (t, m) ∧ ActsAs lowestBytes demo t m :=
  bytes_act_as_ledger lowestBytes 7 (lowest_confined (by decide)) demo demo_limits (by decide)

end Histories

section Destructor

variable {γ : Type}

/-- On bytes the destructor frees the nodes of a tree, each of them once, and no other block. -/
theorem spec_freeNodes (fuel : Nat) {t : Trie Addr} (hfuel : height t ≤ fuel) (hsound : AllNodes Sound t)
    (hlow : ∀ x ∈ addresses t, x < 2 ^ 64) {S : Multiset (Addr × List UInt8)} {Q : γ → Mem (List UInt8) → Prop}
    {E : Fault → Prop} {g : Unit → ByteM γ} (h : Spec (Holds S) (g ()) Q E) :
    Spec (Holds (laid (cells t) + S)) (ByteTree.freeNodes fuel t.tag >>= g) Q E := by
  induction fuel generalizing t S γ with
  | zero =>
      obtain ⟨a, rc, p, es⟩ := t
      simp [height] at hfuel
  | succ fuel ih =>
      obtain ⟨a, rc, p, es⟩ := t
      rw [height] at hfuel
      have hfits : Fits ⟨rc, p, slots es⟩ := fits_of_sound hsound.here
      -- the children behind l are gone, those of r are still there
      have hloop (l r : Edges Addr) (hes : es = l ++ r) {k : Unit → ByteM γ}
          (hk : Spec (Holds ((a, layout ⟨rc, p, slots es⟩) ::ₘ S)) (k ()) Q E) :
          Spec (Holds ((a, layout ⟨rc, p, slots es⟩) ::ₘ (laid (edgesCells r) + S)))
            ((List.range' l.length r.length).forM (fun i => do
              let child ← ByteNode.nodeAt a i
              ByteTree.freeNodes fuel child) >>= k) Q E := by
        induction r generalizing l with
        | nil => simpa [edgesCells, laid] using hk
        | cons e r ihr =>
            obtain ⟨b, u⟩ := e
            have hmem : (b, u) ∈ es := by simp [hes]
            have hheight : height u ≤ fuel := by
              have hle : height u ≤ edgesHeight es := Traversal.height_child hmem
              omega
            have hsub (x : Addr) (hx : x ∈ addresses u) : x ∈ addresses (.node a rc p es) := by
              obtain ⟨c, hc, rfl⟩ := Multiset.mem_map.mp hx
              refine Multiset.mem_map_of_mem Prod.fst ?_
              rw [cells]
              exact Multiset.mem_cons_of_mem (mem_edgesCells hmem hc)
            have hu : u.tag < 2 ^ 64 := hlow _ (hsub _ (Multiset.mem_map_of_mem Prod.fst (mem_cells u)))
            have hslots : slots es = slots l ++ (b, u.tag) :: slots r := by rw [hes, slots_append, slots_cons]
            have hchild : Gives (Holds ((a, layout ⟨rc, p, slots es⟩) ::ₘ (laid (edgesCells ((b, u) :: r)) + S)))
                (ByteNode.nodeAt a l.length) u.tag := by
              rw [hslots] at hfits ⊢
              rw [← slots_length l]
              exact gives_nodeAt (Multiset.mem_cons_self _ _) hfits hu
            rw [List.length_cons, List.range'_succ, List.forM_eq_forM, List.forM_cons, bind_assoc, bind_assoc]
            refine spec_gives hchild ?_
            rw [edgesCells, laid_add, add_assoc, ← Multiset.add_cons]
            refine ih hheight (hsound.child _ hmem) (fun x hx => hlow x (hsub x hx)) ?_
            have hrest := ihr (l ++ [(b, u)]) (by simp [hes])
            rw [List.length_append, List.length_singleton] at hrest
            exact hrest
      rw [ByteTree.freeNodes, bind_assoc, cells, laid_cons, Multiset.cons_add]
      refine spec_gives (gives_edgecount (Multiset.mem_cons_self _ _) hfits) ?_
      dsimp only
      rw [bind_assoc, slots_length, List.range_eq_range']
      exact hloop [] es rfl (spec_free_bind h)

/-- After any history of short keys the memory is the packed layout of the nodes of
its tree and nothing else, and the destructor frees every block exactly once. -/
theorem bytes_laid_out_and_freed (A : ByteAllocator) (room : Nat) (hA : Confined A.toAllocator (2 ^ 64) room)
    (ops : List Op) (h : ShortKeys ops) (hroom : 2 * ops.length + 1 ≤ room) :
    ∃ t m T, run A ops emptyMem = .ok (t, m) ∧ T.tag = t.root ∧ forget T = (abstractRun ops).tree ∧
      Holds (laid (cells T)) m ∧ ∃ m', ByteTree.destroy t m = .ok ((), m') ∧ m'.cells = ∅ := by
  obtain ⟨T, m, hrun, hT, hcanon, hm, hlow, -⟩ := run_reaches hA h hroom
  refine ⟨_, m, T, hrun, rfl, hT, hm, ?_⟩
  have hcard : m.cells.keys.card = Multiset.card (cells T) := by
    rw [← Finset.card_val, holds_keys hm, laid_fst, Multiset.card_map]
  have hheight : height T ≤ m.cells.keys.card := by
    rw [hcard]
    exact Traversal.height_le_card T
  have hfree : Spec (Holds (laid (cells T) + 0)) (ByteTree.freeNodes m.cells.keys.card T.tag >>= pure)
      (fun _ => Holds 0) (fun _ => False) :=
    spec_freeNodes _ hheight (canon_sound hcanon) (addresses_low hm hlow) (spec_pure (fun _ hm => hm))
  rw [bind_pure] at hfree
  obtain ⟨u, m', hu, hm'⟩ := (hfree m (by rwa [add_zero])).exists_ok
  exact ⟨m', hu, holds_cells_eq holds_empty hm'⟩

theorem bytes_laid_out_and_freed_demo :
    ∃ t m T, run lowestBytes demo emptyMem = .ok (t, m) ∧ T.tag = t.root ∧ forget T = (abstractRun demo).tree ∧
      Holds (laid (cells T)) m ∧ ∃ m', ByteTree.destroy t m = .ok ((), m') ∧ m'.cells = ∅ :=
  bytes_laid_out_and_freed lowestBytes 7 (lowest_confined (by decide)) demo demo_limits.short (by decide)

end Destructor

end StudyNotes.Radix.ByteRuns
