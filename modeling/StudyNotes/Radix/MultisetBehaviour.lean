import StudyNotes.Radix.Runs

namespace StudyNotes.Radix.MultisetBehaviour

open Heap.Program Heap.Triple Node Program KeyTree KeyTreeCount Context PlacedShape Refine Runs

/-- The tree reached by a history answers every call as the multiset of its keys. -/
structure ActsAs (A : Allocator Block) (ops : List Op) (t : RadixTree) (m : Mem Block) : Prop where
  contains : ∀ k : Key, ∃ m', contains t k.buffer k.size m =
    .ok (decide (0 < (ledger ops).count k.bytes), m') ∧ m'.cells = m.cells
  insert : ∀ k : Key, k.size < 2 ^ 32 → ∃ t' m', insert A t k.buffer k.size m =
    .ok ((decide ((ledger ops).count k.bytes = 0), t'), m') ∧
      run A (ops ++ [.insert k]) emptyMem = .ok (t', m') ∧
      ledger (ops ++ [.insert k]) = k.bytes ::ₘ ledger ops
  erase : ∀ k : Key, ∃ t' m', erase A t k.buffer k.size m =
    .ok ((decide (0 < (ledger ops).count k.bytes), t'), m') ∧
      run A (ops ++ [.erase k]) emptyMem = .ok (t', m') ∧
      ledger (ops ++ [.erase k]) = (ledger ops).erase k.bytes ∧
      ((ledger ops).count k.bytes = 0 → t' = t ∧ m'.cells = m.cells)
  size : t.size.toNat = Multiset.card (ledger ops) % 2 ^ 64

/-- A history within the limits runs to its end, and the tree it leaves acts as
the multiset of the keys inserted and not erased. -/
theorem acts_as_ledger (A : Allocator Block) (ops : List Op) (h : Limits ops) :
    ∃ t m, run A ops emptyMem = .ok (t, m) ∧ ActsAs A ops t m := by
  obtain ⟨T, m, hrun, hT, hplaced, hm⟩ := run_reaches A h.short
  have hagrees := agrees_run h
  have hcanon := canon_run h.short
  have hcount (s : List UInt8) : (ledger ops).count s = (countOf s (forget T)).toNat := by
    rw [hT, ← hagrees.keys]
    exact count_keys _ s hcanon.shaped
  have hzero (s : List UInt8) : (ledger ops).count s = 0 ↔ countOf s (forget T) = 0 := by
    rw [hcount, ← UInt32.toNat_zero, UInt32.toNat_inj]
  have hpos (s : List UInt8) : 0 < (ledger ops).count s ↔ countOf s (forget T) ≠ 0 := by
    rw [Nat.pos_iff_ne_zero, ne_eq, hzero]
  have hm0 : Holds (cells T + 0) m := by rwa [add_zero]
  refine ⟨_, m, hrun, ?_, ?_, ?_, ?_⟩
  · intro k
    obtain ⟨b, m', hc, hb, hm'⟩ := (contains_refines hplaced k m hm0).exists_ok
    exact ⟨m', by rw [hc, hb]; simp only [hpos], holds_cells_eq hm0 hm'⟩
  · intro k hk
    obtain ⟨r, m', hi, T', -, rfl, -⟩ := (insert_refines hplaced k hk m hm0).exists_ok
    refine ⟨_, m', ?_, run_step hrun hi, ledger_concat _ _⟩
    rw [hi]
    simp only [hzero]
  · intro k
    obtain ⟨r, m', he, T', -, rfl, hsame, hm'⟩ := (erase_refines hplaced k m hm0).exists_ok
    refine ⟨_, m', ?_, run_step hrun he, ledger_concat _ _, ?_⟩
    · rw [he]
      simp only [hpos]
    · intro h0
      have hc := (hzero k.bytes).mp h0
      obtain rfl := hsame hc
      exact ⟨by simp [hc], holds_cells_eq hm0 hm'⟩
  · change (abstractRun ops).size.toNat = _
    rw [hagrees.size, UInt64.toNat_ofNat']

theorem acts_as_ledger_demo : ∃ t m, run moving demo emptyMem = .ok (t, m) ∧ ActsAs moving demo t m :=
  acts_as_ledger moving demo demo_limits

def unaryKeys (N : Nat) : List Key :=
  (List.range N).map (unary 1 (by decide)) ++ (List.range N).map (unary 2 (by decide))

/-- Each of the first N unary keys over two letters, n times. -/
def crowd (N n : Nat) : List Op := (unaryKeys N).flatMap (fun k => List.replicate n (.insert k))

theorem unary_injective (c : UInt8) (hc : c ≠ 0) : Function.Injective (fun n => (unary c hc n).bytes) := by
  intro n n' h
  have hlen := congrArg List.length h
  simpa [unary] using hlen

theorem unaryKeys_nodup (N : Nat) : ((unaryKeys N).map Key.bytes).Nodup := by
  rw [unaryKeys, List.map_append, List.map_map, List.map_map, List.nodup_append]
  refine ⟨List.nodup_range.map (unary_injective 1 _), List.nodup_range.map (unary_injective 2 _), ?_⟩
  intro s hs s' hs' heq
  obtain ⟨n, -, rfl⟩ := List.mem_map.mp hs
  obtain ⟨n', -, rfl⟩ := List.mem_map.mp hs'
  have hhead := congrArg List.head? heq
  simp [unary, List.replicate_succ] at hhead

theorem countP_copies (ks : List Key) (hks : (ks.map Key.bytes).Nodup) (n : Nat) (s : List UInt8) :
    (ks.flatMap (fun k => List.replicate n (Op.insert k))).countP (Op.inserts s) ≤ n := by
  induction ks with
  | nil => simp
  | cons k ks ih =>
      rw [List.map_cons, List.nodup_cons] at hks
      rw [List.flatMap_cons, List.countP_append, List.countP_replicate]
      by_cases hk : k.bytes = s
      · have hrest : (ks.flatMap (fun k => List.replicate n (Op.insert k))).countP (Op.inserts s) = 0 := by
          rw [List.countP_eq_zero]
          intro op hop
          obtain ⟨k', hk', hop⟩ := List.mem_flatMap.mp hop
          rw [List.eq_of_mem_replicate hop, Op.inserts, decide_eq_true_eq]
          exact fun h => hks.1 (List.mem_map.mpr ⟨k', hk', h.trans hk.symm⟩)
        rw [hrest]
        split <;> omega
      · have hz : Op.inserts s (.insert k) = false := by simp [Op.inserts, hk]
        rw [hz]
        simpa using ih hks.2

theorem card_ledger_inserts (ops : List Op) (h : ∀ op ∈ ops, ∃ k, op = .insert k) :
    Multiset.card (ledger ops) = ops.length := by
  induction ops using List.reverseRecOn with
  | nil => simp [ledger]
  | append_singleton ops op ih =>
      obtain ⟨k, rfl⟩ := h op (by simp)
      rw [ledger_concat, ledgerStep, Multiset.card_cons, ih (fun op hop => h op (by simp [hop]))]
      simp

theorem mem_crowd {N n : Nat} {op : Op} (h : op ∈ crowd N n) : ∃ k ∈ unaryKeys N, op = .insert k := by
  obtain ⟨k, hk, hop⟩ := List.mem_flatMap.mp h
  exact ⟨k, hk, List.eq_of_mem_replicate hop⟩

theorem crowd_length (N n : Nat) : (crowd N n).length = 2 * N * n := by
  simp only [crowd, List.length_flatMap, List.length_replicate, unaryKeys, List.map_append, List.map_map,
    List.sum_append, Function.comp_def, List.map_const', List.length_range, List.sum_replicate_nat]
  rw [Nat.mul_assoc, Nat.two_mul]

theorem crowd_limits {N n : Nat} (hN : N < 2 ^ 32) (hn : n < 2 ^ 32) : Limits (crowd N n) := by
  refine limits_of_inserts (fun k hk => ?_) (fun s => (countP_copies _ (unaryKeys_nodup N) n s).trans_lt hn)
  obtain ⟨k', hk', heq⟩ := mem_crowd hk
  obtain rfl : k = k' := by simpa using heq
  rw [unaryKeys, List.mem_append, List.mem_map, List.mem_map] at hk'
  rcases hk' with ⟨i, hi, rfl⟩ | ⟨i, hi, rfl⟩
  · rw [unary_size]
    have := List.mem_range.mp hi
    omega
  · rw [unary_size]
    have := List.mem_range.mp hi
    omega

theorem crowd_card (N n : Nat) : Multiset.card (ledger (crowd N n)) = 2 * N * n := by
  rw [card_ledger_inserts _ (fun op hop => by obtain ⟨k, -, rfl⟩ := mem_crowd hop; exact ⟨k, rfl⟩), crowd_length]

theorem crowd_wraps {N n : Nat} (hN : N < 2 ^ 32) (hn : n < 2 ^ 32) (hbig : 2 ^ 64 ≤ 2 * N * n) :
    ∃ ops, Limits ops ∧ ∃ t m, run bump ops emptyMem = .ok (t, m) ∧
      t.size.toNat ≠ Multiset.card (ledger ops) := by
  have hlim := crowd_limits hN hn
  obtain ⟨t, m, hrun, -⟩ := (run_refines bump hlim.short emptyMem holds_empty).exists_ok
  refine ⟨crowd N n, hlim, t, m, hrun, ?_⟩
  rw [crowd_card]
  have hlt := t.size.toNat_lt
  omega

/-- Once 2^64 copies are alive the counter size_ has wrapped around, although no
single key is long or has many copies. -/
theorem size_wraps : ∃ ops, Limits ops ∧ ∃ t m, run bump ops emptyMem = .ok (t, m) ∧
    t.size.toNat ≠ Multiset.card (ledger ops) :=
  crowd_wraps (N := 2 ^ 32 - 1) (n := 2 ^ 32 - 1) (by omega) (by omega) (by omega)

end StudyNotes.Radix.MultisetBehaviour
