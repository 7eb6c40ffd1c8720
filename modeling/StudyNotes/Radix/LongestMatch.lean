import StudyNotes.Radix.Erasing
import StudyNotes.Radix.KeyLength
import StudyNotes.Radix.LongKeys

namespace StudyNotes.Radix.LongestMatch

open Heap.Program Heap.Triple Node Program KeyTree KeyTreeShape Context MatchSpec InsertSpec InsertStep PlacedShape
open Refine Runs HeapShape KeyLength LongKeys Erasing

variable {α : Type}

/-- A string that is read along a path from the root, and may end inside the prefix of a node. -/
def Spelled (s : List UInt8) (T : Trie α) : Prop := ∃ C t c, plug C t = T ∧ c <+: t.bytes ∧ s = path C ++ c

theorem path_append (C D : List (Frame α)) : path (C ++ D) = path D ++ path C := by
  induction C with
  | nil => rw [List.nil_append, path, List.append_nil]
  | cons f C ih => rw [List.cons_append, path, ih, path, List.append_assoc]

/-- A path that leaves a node goes on in one of its children. -/
theorem Spelled.cases {s : List UInt8} {T : Trie α} (h : Spelled s T) :
    s <+: T.bytes ∨ ∃ e ∈ T.edges, ∃ s', s = T.bytes ++ s' ∧ Spelled s' e.2 := by
  obtain ⟨C, t, c, rfl, hc, rfl⟩ := h
  rcases List.eq_nil_or_concat C with rfl | ⟨C, f, rfl⟩
  · exact Or.inl hc
  · right
    rw [List.concat_eq_append, plug_append, path_append]
    refine ⟨(f.label, plug C t), by simp [plug, Frame.fill], path C ++ c, ?_, C, t, c, rfl, hc, rfl⟩
    simp [plug, Frame.fill, path]

theorem Spelled.comparable {s : List UInt8} {t : Trie α} (h : Spelled s t) : s <+: t.bytes ∨ t.bytes <+: s := by
  rcases h.cases with h | ⟨e, -, s', rfl, -⟩
  · exact Or.inl h
  · exact Or.inr (List.prefix_append _ _)

theorem Spelled.head {s : List UInt8} {t : Trie α} {y : UInt8} (h : Spelled s t) (ht : t.bytes.head? = some y)
    (hs : s ≠ []) : s.head? = some y := by
  obtain ⟨z, s, rfl⟩ := List.exists_cons_of_ne_nil hs
  obtain ⟨p, hp⟩ := List.head?_eq_some_iff.mp ht
  rcases h.comparable with ⟨u, hu⟩ | ⟨u, hu⟩
  · rw [hp, List.cons_append, List.cons.injEq] at hu
    rw [hu.1, List.head?_cons]
  · rw [hp, List.cons_append, List.cons.injEq] at hu
    rw [← hu.1, List.head?_cons]

/-- With distinct labels a string that agrees with the key passes through the position of the walk. -/
theorem Spelled.descend {C : List (Frame α)} {t : Trie α} {k s : List UInt8} (hT : Shaped (plug C t)) (hC : Follows C k)
    (h : Spelled s (plug C t)) (hs : s <+: path C ++ k) (hlen : (path C).length < s.length) :
    ∃ s', s = path C ++ s' ∧ Spelled s' t := by
  induction C generalizing t k with
  | nil => exact ⟨s, rfl, h⟩
  | cons f C ih =>
      obtain ⟨hk, -, hC⟩ := hC
      rw [path, List.append_assoc] at hs
      rw [path, List.length_append] at hlen
      obtain ⟨s₁, rfl, h₁⟩ := ih (t := f.fill t) hT hC h hs (by omega)
      rw [List.length_append] at hlen
      rw [List.prefix_append_right_inj] at hs
      rcases h₁.cases with hin | ⟨e, he, s', rfl, h'⟩
      · have hle : s₁.length ≤ f.bytes.length := hin.length_le
        omega
      · have hbytes : (f.fill t).bytes = f.bytes := rfl
        rw [hbytes] at hs hlen ⊢
        rw [List.length_append] at hlen
        rw [List.prefix_append_right_inj] at hs
        have hne : s' ≠ [] := by
          rintro rfl
          simp at hlen
        have hnode : Labelled (f.fill t) := (AllNodes.focus (C := C) (t := f.fill t) hT).here
        have hlabel : e.1 = f.label := by
          obtain ⟨z, s'', rfl⟩ := List.exists_cons_of_ne_nil hne
          obtain ⟨u, rfl⟩ := hs
          have hhead := h'.head (hnode.first e he) hne
          rw [List.cons_append, List.head?_cons] at hk
          rw [List.head?_cons, hk] at hhead
          exact (Option.some.inj hhead).symm
        have hmem : (f.label, t) ∈ (f.fill t).edges := by simp [Frame.fill]
        obtain rfl : e = (f.label, t) := List.inj_on_of_nodup_map hnode.distinct he hmem hlabel
        exact ⟨s', by rw [path, List.append_assoc], h'⟩

section Stops

variable {b : List UInt8} {n : Nat} {C : List (Frame Addr)} {t : Trie Addr} {i j : Nat}

theorem first_of_shaped {T : Trie Addr} (h : Shaped T) : AllNodes First T :=
  AllNodes.mono (fun _ h e he => Or.inr (h.first e he)) h

theorem not_empty_child {f : Frame Addr} {C : List (Frame Addr)} {a : Addr} {rc : UInt32} {es : Edges Addr}
    (hT : Shaped (plug (f :: C) (.node a rc [] es))) : False := by
  have hnode : Labelled (f.fill (.node a rc [] es)) := (AllNodes.focus (C := C) (t := f.fill _) hT).here
  have hhead := hnode.first (f.label, .node a rc [] es) (by simp [Frame.fill])
  simp at hhead

/-- No longer part of the key is spelled than the walk has found. -/
theorem length_le_of_stop (hT : Shaped (plug C t)) (hstop : Stop b n C t i j) {s : List UInt8} (h : Spelled s (plug C t))
    (hs : s <+: b) (hn : s.length ≤ n) : s.length ≤ i := by
  by_contra hlong
  cases hstop with
  | inside C a rc c x q es y rest hkey hxy hC hlt =>
      rw [hkey] at hs
      obtain ⟨s', rfl, h'⟩ := h.descend hT hC hs (by omega)
      rw [List.length_append] at hlong
      rw [List.prefix_append_right_inj] at hs
      have hcx : c ++ [x] <+: c ++ x :: q := ⟨q, by simp⟩
      have hspelled : c ++ [x] <+: s' := by
        rcases h'.comparable with hin | hout
        · exact List.prefix_of_prefix_length_le hcx hin (by simp; omega)
        · exact hcx.trans hout
      have hagree := hspelled.trans hs
      rw [List.prefix_append_right_inj, List.cons_prefix_cons] at hagree
      exact hxy hagree.1
  | full C a rc p es rest hkey hC hlt hp hend =>
      rw [hkey] at hs
      obtain ⟨s', rfl, h'⟩ := h.descend hT hC hs (by omega)
      rw [List.length_append] at hlong hn
      rw [List.prefix_append_right_inj] at hs
      rcases h'.cases with hin | ⟨e, he, s'', rfl, h''⟩
      · have hle : s'.length ≤ p.length := hin.length_le
        omega
      · rw [Trie.bytes_node, List.length_append] at hlong hn
        rw [Trie.bytes_node, List.prefix_append_right_inj] at hs
        have hne : s'' ≠ [] := by
          rintro rfl
          simp at hlong
        have hnode : Labelled (.node a rc p es) := (AllNodes.focus hT).here
        have hhead := h''.head (hnode.first e he) hne
        obtain ⟨u, rfl⟩ := hs
        refine hend.resolve_left (by omega) e.1 ?_ (List.mem_map_of_mem he)
        rw [List.head?_append, hhead]
        rfl
  | empty f C a rc rest hkey hC hlt => exact not_empty_child hT

end Stops

/-- What the members of the result of match mean: the key is matched as far as it is spelled in the tree, up to
nprefix bytes of the current node, and the two edge indices lead down to that node. -/
structure Locates (m : Mem Block) (T : Trie Addr) (k : Key) (r : MatchResult) : Prop where
  within_key : r.nkey ≤ k.size
  longest : ∀ s, s <+: k.bytes → Spelled s T → s.length ≤ r.nkey
  position : ∃ C t, plug C t = T ∧ t.tag = r.currentNode ∧ r.nPrefix ≤ t.bytes.length ∧ (C = [] ∨ 0 < r.nPrefix) ∧
    k.bytes.take r.nkey = path C ++ t.bytes.take r.nPrefix
  parent : r.currentNode ≠ T.tag → IsSlot m r.parentNode r.edgeIndex r.currentNode
  grandparent : r.currentNode ≠ T.tag → r.parentNode ≠ T.tag → IsSlot m r.grandparentNode r.gpEdgeIndex r.parentNode

/-- The matched part of the key is spelled. -/
theorem Locates.spelled {m : Mem Block} {T : Trie Addr} {k : Key} {r : MatchResult} (h : Locates m T k r) :
    Spelled (k.bytes.take r.nkey) T := by
  obtain ⟨C, t, hT, -, -, -, htake⟩ := h.position
  exact ⟨C, t, t.bytes.take r.nPrefix, hT, List.take_prefix _ _, htake⟩

section Locating

variable {F : Multiset (Addr × Block)} {m : Mem Block} {C : List (Frame Addr)} {t : Trie Addr} {i j : Nat} {k : Key}

theorem position_of_stop (hT : Shaped (plug C t)) (hstop : Stop k.buffer k.size C t i j) (hi : i ≤ k.size) :
    j ≤ t.bytes.length ∧ (C = [] ∨ 0 < j) ∧ k.bytes.take i = path C ++ t.bytes.take j := by
  have htake {u v : List UInt8} (hkey : k.buffer = u ++ v) (hu : u.length = i) : k.bytes.take i = u := by
    have hbuffer : k.buffer.take i = k.bytes.take i := List.take_append_of_le_length hi
    rw [← hbuffer]
    rw [hkey, ← hu, List.take_left]
  cases hstop with
  | inside C a rc c x q es y rest hkey hxy hC hlt =>
      refine ⟨by simp, ?_, ?_⟩
      · cases C with
        | nil => exact Or.inl rfl
        | cons f C =>
            right
            rw [List.length_pos_iff]
            exact fork_ne_nil (first_of_shaped hT) hxy hC
      · rw [Trie.bytes_node, List.take_left]
        exact htake (by rw [hkey, List.append_assoc]) (by simp)
  | full C a rc p es rest hkey hC hlt hp hend =>
      refine ⟨Nat.le_refl _, hp.imp_right List.length_pos_iff.mpr, ?_⟩
      rw [Trie.bytes_node, List.take_length]
      exact htake (by rw [hkey, List.append_assoc]) (by simp)
  | empty f C a rc rest hkey hC hlt => exact (not_empty_child hT).elim

theorem isSlot_frame {f : Frame Addr} {D : List (Frame Addr)} {u : Trie Addr} (hm : Holds (cells (plug (f :: D) u) + F) m) :
    IsSlot m f.tag f.left.length u.tag := by
  have hlookup : m.cells.lookup f.tag = some (blockOf (f.fill u)) := lookup_sub hm (C := D) (t := f.fill u) rfl
  refine ⟨blockOf (f.fill u), f.label, hlookup, ?_⟩
  rw [blockOf_edges, Frame.fill, Trie.edges_node, slots_append, slots_cons, ← slots_length f.left]
  simp

theorem locates_of_stop (hm : Holds (cells (plug C t) + F) m) (hT : Shaped (plug C t))
    (hstop : Stop k.buffer k.size C t i j) (hi : i ≤ k.size) : Locates m (plug C t) k (located C t.tag i j) where
  within_key := hi
  longest s hs h := length_le_of_stop hT hstop h (hs.trans (List.prefix_append _ _)) hs.length_le
  position := ⟨C, t, rfl, rfl, position_of_stop hT hstop hi⟩
  parent hne := by
    cases C with
    | nil => exact absurd rfl hne
    | cons f C => exact isSlot_frame hm
  grandparent hne hne' := by
    rcases C with _ | ⟨f, _ | ⟨g, C⟩⟩
    · exact absurd rfl hne
    · exact absurd rfl hne'
    · exact isSlot_frame (f := g) (D := C) (u := f.fill t) hm

end Locating

/-- The terminating zero ends the walk for a key that the tree does not go on with a zero byte. -/
theorem clear_terminated_iff (k : Key) (T : Trie Addr) : Clear k.buffer k.size T ↔ cutAt k.bytes T ≠ some 0 := by
  have hzero : k.buffer[k.size]? = some 0 := by simp [Key.buffer, Key.size]
  rw [Clear, k.take_buffer, hzero]
  constructor
  · intro h hcut
    obtain ⟨y, hy, hne⟩ := h 0 hcut
    exact hne (Option.some.inj hy).symm
  · intro h x hcut
    exact ⟨0, rfl, fun hx => h (by rw [hcut, hx])⟩

theorem stays_terminated_iff {T : Trie Addr} {F : Multiset (Addr × Block)} {m : Mem Block} (hm : Holds (cells T + F) m)
    (hT : Shaped T) (w : UInt64) (k : Key) :
    (∃ r m', matchKey ⟨T.tag, w⟩ k.buffer k.size m = .ok (r, m') ∧ r.nkey ≤ k.size) ↔ cutAt k.bytes T ≠ some 0 := by
  rw [← clear_terminated_iff]
  exact matchKey_stays_iff w k.size_pos k.size_le (first_of_shaped hT) hm

/-- In a placed tree with correct and distinct first bytes, match ends and locates the key, unless the key ends
inside the prefix of a node and the prefix goes on with a zero byte. -/
theorem match_locates_iff {T : Trie Addr} {F : Multiset (Addr × Block)} {m : Mem Block} (hm : Holds (cells T + F) m)
    (hT : Shaped T) (w : UInt64) (k : Key) :
    (∃ r m', matchKey ⟨T.tag, w⟩ k.buffer k.size m = .ok (r, m') ∧ Locates m T k r) ↔ cutAt k.bytes T ≠ some 0 := by
  rw [← stays_terminated_iff hm hT w k]
  constructor
  · rintro ⟨r, m', hrun, hloc⟩
    exact ⟨r, m', hrun, hloc.within_key⟩
  · rintro ⟨r, m', hrun, hle⟩
    have hspec := matchKey_spec k.size_pos k.size_le T (first_of_shaped hT) w m hm
    rw [hrun] at hspec
    obtain ⟨-, C, t, i, j, rfl, rfl, hstop⟩ := hspec
    exact ⟨_, m', hrun, locates_of_stop hm hT hstop hle⟩

/-- In every tree that is reached with short keys, match locates every key. -/
theorem run_locates (A : Allocator Block) {ops : List Op} (h : ShortKeys ops) (k : Key) :
    ∃ T m, run A ops emptyMem = .ok (⟨T.tag, (abstractRun ops).size⟩, m) ∧ forget T = (abstractRun ops).tree ∧
      ∃ r m', matchKey ⟨T.tag, (abstractRun ops).size⟩ k.buffer k.size m = .ok (r, m') ∧ Locates m T k r := by
  obtain ⟨T, m, hrun, hT, hcanon, hm⟩ := run_reaches A h
  have hz := canon_noZero hcanon
  rw [← add_zero (cells T)] at hm
  have hspec := matchKey_spec k.size_pos k.size_le T (first_of_shaped hcanon.shaped) (abstractRun ops).size m hm
  obtain ⟨r, m', hmatch, -, C, t, i, j, rfl, rfl, hstop⟩ := (hspec.mono (fun _ _ h => h) (fun e he =>
    absurd he.2 (not_endsInside hz k.bytes))).exists_ok
  exact ⟨_, m, hrun, hT, _, m', hmatch, locates_of_stop hm hcanon.shaped hstop (stays_of_noZero hz rfl hstop)⟩

/-- The tree of the key a, and the key itself. -/
theorem match_locates_letter : ∃ T m, Holds (cells T + 0) m ∧ Shaped T ∧
    ∃ r m', matchKey ⟨T.tag, 1⟩ letter.buffer letter.size m = .ok (r, m') ∧ Locates m T letter r := by
  obtain ⟨T, m, -, hT, hcanon, hm⟩ := run_reaches moving (shortKeys_letter 1)
  rw [← add_zero (cells T)] at hm
  refine ⟨T, m, hm, hcanon.shaped, (match_locates_iff hm hcanon.shaped 1 letter).mpr ?_⟩
  rw [← cutAt_forget, hT]
  decide

theorem zeroInside_pos : 0 < 3 := Nat.zero_lt_succ 2

theorem zeroInside_le : 3 ≤ [(97 : UInt8), 0, 98].length := Nat.le_refl 3

/-- A key of three bytes, the second of them zero. -/
def zeroInside : Buffer := ⟨[97, 0, 98], 3, zeroInside_pos, zeroInside_le⟩

/-- With this key in the tree, the walk for the key a goes past the terminating zero. -/
theorem match_past_zero : ∃ T m, runCalls moving [.insert zeroInside] emptyMem = .ok (⟨T.tag, 1⟩, m) ∧
    Holds (cells T + 0) m ∧ Shaped T ∧ T.bytes = [] ∧
    ¬∃ r m', matchKey ⟨T.tag, 1⟩ letter.buffer letter.size m = .ok (r, m') ∧ Locates m T letter r := by
  obtain ⟨a, x, y, m, hrun, hy, hm⟩ := runCalls_first moving zeroInside (by decide)
  obtain rfl : (97 : UInt8) = y := Option.some.inj hy
  have hleaf : leafBytes zeroInside.bytes zeroInside.size 0 = [97, 0, 98] := rfl
  rw [hleaf] at hm
  rw [← add_zero (cells _)] at hm
  have hT : Shaped (.node a 0 [] [(97, .node x 1 [97, 0, 98] [])]) := by
    refine .node (labelled_single a 0 [] 97 _ rfl) (fun e he => ?_)
    obtain rfl := List.mem_singleton.mp he
    exact .node ⟨by simp, by simp [labels]⟩ (by simp)
  refine ⟨.node a 0 [] [(97, .node x 1 [97, 0, 98] [])], m, hrun, hm, hT, rfl, ?_⟩
  rintro ⟨r, m', hmatch, hloc⟩
  exact (stays_terminated_iff hm hT 1 letter).mp ⟨r, m', hmatch, hloc.within_key⟩ rfl

end StudyNotes.Radix.LongestMatch
