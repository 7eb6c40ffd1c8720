import StudyNotes.Radix.LongKeys

namespace StudyNotes.Radix.Enumeration

open Heap.Program Heap.Triple Node NodeSpec Program KeyTree KeyTreeCases KeyTreeMultiset KeyTreeShape KeyTreeCount
open Context MatchSpec PlacedShape Refine Runs HeapShape Traversal LongKeys

section Order

variable {α : Type}

mutual

/-- The keys of a subtree in the order of the traversal, each of them once. -/
def keyList : Trie α → List (List UInt8)
  | .node _ rc p es => ((if rc > 0 then [[]] else []) ++ edgesKeyList es).map (p ++ ·)

def edgesKeyList : Edges α → List (List UInt8)
  | [] => []
  | (_, t) :: es => keyList t ++ edgesKeyList es

end

theorem edgesKeyList_append (es es' : Edges α) :
    edgesKeyList (es ++ es') = edgesKeyList es ++ edgesKeyList es' := by
  induction es with
  | nil => simp [edgesKeyList]
  | cons e es ih =>
      obtain ⟨b, t⟩ := e
      rw [List.cons_append, edgesKeyList, edgesKeyList, ih, List.append_assoc]

theorem edgesKeyList_take {es : Edges α} {i : Nat} {e : UInt8 × Trie α} (he : es[i]? = some e) :
    edgesKeyList (es.take (i + 1)) = edgesKeyList (es.take i) ++ keyList e.2 := by
  rw [List.take_add_one, he, Option.toList_some, edgesKeyList_append, edgesKeyList, edgesKeyList, List.append_nil]

theorem mem_edgesKeyList {k : List UInt8} {es : Edges α} : k ∈ edgesKeyList es ↔ ∃ e ∈ es, k ∈ keyList e.2 := by
  induction es with
  | nil => simp [edgesKeyList]
  | cons e es ih =>
      obtain ⟨b, t⟩ := e
      simp [edgesKeyList, ih]

theorem pos_iff {rc : UInt32} : rc > 0 ↔ rc ≠ 0 := UInt32.pos_iff_ne_zero

theorem mem_keyList {t : Trie α} {k : List UInt8} : k ∈ keyList t ↔ k ∈ keys t := by
  induction t using tree_induct generalizing k with
  | h a rc p es ih =>
      have hes (k' : List UInt8) : k' ∈ edgesKeyList es ↔ k' ∈ edgesKeys es := by
        rw [mem_edgesKeyList, mem_edgesKeys]
        constructor
        · rintro ⟨e, he, hk⟩
          exact ⟨e, he, (ih e he).mp hk⟩
        · rintro ⟨e, he, hk⟩
          exact ⟨e, he, (ih e he).mpr hk⟩
      rw [mem_keys_node, keyList, List.mem_map]
      constructor
      · rintro ⟨k', hk', rfl⟩
        rcases List.mem_append.mp hk' with h | h
        · split_ifs at h with hrc
          · obtain rfl : k' = [] := by simpa using h
            exact Or.inl ⟨pos_iff.mp hrc, List.append_nil p⟩
          · simp at h
        · exact Or.inr ⟨k', rfl, (hes k').mp h⟩
      · rintro (⟨hrc, rfl⟩ | ⟨k', rfl, h⟩)
        · exact ⟨[], by simp [pos_iff.mpr hrc], List.append_nil _⟩
        · exact ⟨k', List.mem_append_right _ ((hes k').mpr h), rfl⟩

/-- The labels tell the children's keys apart. -/
theorem edgesKeyList_nodup {es : Edges α} (hfirst : ∀ e ∈ es, e.2.bytes.head? = some e.1)
    (hdistinct : (labels es).Nodup) (h : ∀ e ∈ es, (keyList e.2).Nodup) : (edgesKeyList es).Nodup := by
  induction es with
  | nil => simp [edgesKeyList]
  | cons e es ih =>
      obtain ⟨b, t⟩ := e
      rw [labels_cons, List.nodup_cons] at hdistinct
      have hes : (edgesKeyList es).Nodup :=
        ih (fun e he => hfirst e (by simp [he])) hdistinct.2 (fun e he => h e (by simp [he]))
      rw [edgesKeyList, List.nodup_append]
      refine ⟨h (b, t) (by simp), hes, ?_⟩
      rintro k hk _ hk' rfl
      obtain ⟨e, he, hke⟩ := mem_edgesKeyList.mp hk'
      have hb : k.head? = some b := head_of_mem_keys (hfirst (b, t) (by simp)) (mem_keyList.mp hk)
      have he' : k.head? = some e.1 := head_of_mem_keys (hfirst e (by simp [he])) (mem_keyList.mp hke)
      obtain rfl : b = e.1 := by simpa [hb] using he'
      exact hdistinct.1 (List.mem_map_of_mem he)

theorem keyList_nodup {t : Trie α} (h : Shaped t) : (keyList t).Nodup := by
  induction t using tree_induct with
  | h a rc p es ih =>
      have hes : (edgesKeyList es).Nodup :=
        edgesKeyList_nodup h.here.first h.here.distinct (fun e he => ih e he (h.child e he))
      rw [keyList]
      refine List.Nodup.map (List.append_right_injective p) ?_
      split_ifs with hrc
      · rw [List.singleton_append, List.nodup_cons]
        refine ⟨fun hmem => ?_, hes⟩
        obtain ⟨e, he, hke⟩ := mem_edgesKeyList.mp hmem
        have hhead := head_of_mem_keys (h.here.first e he) (mem_keyList.mp hke)
        simp at hhead
      · exact hes

end Order

section Reports

variable {σ : Type} (func : List UInt8 → Nat → σ → σ)

/-- The calls of func for a list of keys below a common beginning. -/
def report (s : List UInt8) (L : List (List UInt8)) (arg : σ) : σ :=
  L.foldl (fun arg k => func (s ++ k) (s ++ k).length arg) arg

theorem report_append (s : List UInt8) (L L' : List (List UInt8)) (arg : σ) :
    report func s (L ++ L') arg = report func s L' (report func s L arg) := List.foldl_append

theorem report_map (s p : List UInt8) (L : List (List UInt8)) (arg : σ) :
    report func s (L.map (p ++ ·)) arg = report func (s ++ p) L arg := by
  simp only [report, List.foldl_map, List.append_assoc]

theorem report_own (s : List UInt8) (rc : UInt32) (arg : σ) :
    report func s (if rc > 0 then [[]] else []) arg = if rc > 0 then func s s.length arg else arg := by
  split_ifs with hrc
  · simp [report]
  · rfl

end Reports

section Traversal

variable {σ : Type} (A : Allocator Block) (func : List UInt8 → Nat → σ → σ)

theorem popBacks (l : List Nat) (s p : List UInt8) (h : l.length = p.length) :
    l.foldlM (fun buffer _ => popBack buffer) (s ++ p) = pure s := by
  induction l generalizing p with
  | nil =>
      obtain rfl : p = [] := List.length_eq_zero_iff.mp h.symm
      rw [List.append_nil, List.foldlM_nil]
  | cons i l ih =>
      obtain ⟨q, c, rfl⟩ : ∃ q c, p = q ++ [c] :=
        (List.eq_nil_or_concat' p).resolve_left (by rintro rfl; simp at h)
      rw [List.length_cons, List.length_append, List.length_singleton] at h
      have hpop : popBack (s ++ (q ++ [c])) = pure (s ++ q) := by
        rw [popBack, if_neg (by simp), ← List.append_assoc, List.dropLast_concat]
      rw [List.foldlM_cons, hpop, pure_bind]
      exact ih q (by omega)

/-- Pushing reads the chunk byte by byte; past its end any byte may be found. -/
theorem spec_push_any (m : Mem Block) (n : Addr) (buffer : List UInt8) (length : Nat) :
    Spec (· = m) ((List.range length).foldlM (fun buffer i => do
        let c ← prefixAt A n i
        return buffer ++ [c]) buffer)
      (fun r m' => m' = m ∧ ∃ p : List UInt8, p.length = length ∧ r = buffer ++ p) (fun _ => True) := by
  refine Spec.mono (spec_range (I := fun i r m' => m' = m ∧ ∃ p : List UInt8, p.length = i ∧ r = buffer ++ p)
    length ?_) (fun m' hm' => ⟨hm', [], rfl, (List.append_nil _).symm⟩) (fun _ _ h => h) (fun _ h => h)
  rintro i - s m' ⟨rfl, p, rfl, rfl⟩
  have hpush (c : UInt8) : buffer ++ p ++ [c] = buffer ++ (p ++ [c]) := List.append_assoc _ _ _
  refine (?_ : Spec (· = m') _ _ _) m' rfl
  rw [prefixAt, bind_assoc]
  refine spec_load_any trivial (fun b _ => ?_)
  split
  · exact spec_pure (fun _ hm => ⟨hm, p ++ [_], by simp, hpush _⟩)
  · exact spec_garbage_bind (fun c => spec_pure (fun _ hm => ⟨hm, p ++ [c], by simp, hpush c⟩))

/-- Whatever the memory holds, a call that returns leaves it unchanged, and the
vector as it found it. -/
theorem visitKeys_keeps (m : Mem Block) (fuel : Nat) (n : Addr) (buffer : List UInt8) (arg : σ) :
    Spec (· = m) (visitKeys A func fuel n buffer arg) (fun r m' => m' = m ∧ r.1 = buffer) (fun _ => True) := by
  induction fuel generalizing n buffer arg with
  | zero => exact spec_fail trivial
  | succ fuel ih =>
      rw [visitKeys, prefixLength, refcount, edgecount]
      simp only [bind_assoc, pure_bind]
      refine spec_load_any trivial (fun b hb => ?_)
      refine spec_bind (spec_push_any A m n buffer b.prefixBytes.length) (fun r => ?_)
      rintro m' ⟨rfl, p, hp, rfl⟩
      refine (?_ : Spec (· = m') _ _ _) m' rfl
      refine spec_load_any trivial (fun _ _ => spec_load_any trivial (fun b' _ => ?_))
      refine spec_bind (Q := fun s m'' => m'' = m' ∧ s.1 = buffer ++ p) ?_ (fun s => ?_)
      · refine Spec.mono (spec_range (I := fun _ s m'' => m'' = m' ∧ s.1 = buffer ++ p) b'.edges.length ?_)
          (fun _ hm => ⟨hm, rfl⟩) (fun _ _ h => h) (fun _ h => h)
        rintro i - ⟨buffer', arg'⟩ m'' ⟨rfl, rfl⟩
        refine (?_ : Spec (· = m'') _ _ _) m'' rfl
        rw [nodeAt, edgeAt]
        simp only [bind_assoc]
        refine spec_load_any trivial (fun b'' _ => ?_)
        split
        · exact ih _ _ _
        · exact spec_fail trivial
      · rintro m'' ⟨rfl, hs⟩
        refine (?_ : Spec (· = m'') _ _ _) m'' rfl
        refine spec_load_any trivial (fun b₂ hb₂ => ?_)
        obtain rfl : b = b₂ := Option.some.inj (hb.symm.trans hb₂)
        rw [hs, popBacks _ _ _ (by rw [List.length_range, hp]), pure_bind]
        exact spec_pure (fun _ hm => ⟨hm, rfl⟩)

theorem spec_push {S : Multiset (Addr × Block)} {n : Addr} {b : Block} (hb : (n, b) ∈ S) (buffer : List UInt8) :
    Spec (Holds S) ((List.range b.prefixBytes.length).foldlM (fun buffer i => do
        let c ← prefixAt A n i
        return buffer ++ [c]) buffer)
      (fun r m => r = buffer ++ b.prefixBytes ∧ Holds S m) (fun _ => False) := by
  refine Spec.mono (spec_range (I := fun i r m => r = buffer ++ b.prefixBytes.take i ∧ Holds S m)
    b.prefixBytes.length ?_) (fun m hm => ⟨by simp, hm⟩) (fun _ _ h => by simpa using h) (fun _ h => h)
  rintro i hi s m ⟨rfl, hm⟩
  refine (?_ : Spec (Holds S) _ _ _) m hm
  apply spec_prefixAt hb (List.getElem?_eq_getElem hi)
  exact spec_pure (fun _ hm => ⟨by rw [List.append_assoc, List.take_append_getElem], hm⟩)

/-- In a placed tree a call reports the keys of its subtree behind the bytes
that are in the vector already. -/
theorem spec_visitKeys {S : Multiset (Addr × Block)} (fuel : Nat) {t : Trie Addr} (hfuel : height t ≤ fuel)
    (hS : ∀ c ∈ cells t, c ∈ S) (buffer : List UInt8) (arg : σ) :
    Spec (Holds S) (visitKeys A func fuel t.tag buffer arg)
      (fun r m => r = (buffer, report func buffer (keyList t) arg) ∧ Holds S m) (fun _ => False) := by
  induction fuel generalizing t buffer arg with
  | zero =>
      obtain ⟨a, rc, p, es⟩ := t
      simp [height] at hfuel
  | succ fuel ih =>
      obtain ⟨a, rc, p, es⟩ := t
      rw [height] at hfuel
      have hb : (a, ⟨rc, p, slots es⟩) ∈ S := hS _ (by rw [cells]; exact Multiset.mem_cons_self _ _)
      have hchild (e : UInt8 × Trie Addr) (he : e ∈ es) : ∀ c ∈ cells e.2, c ∈ S := fun c hc =>
        hS c (by rw [cells]; exact Multiset.mem_cons_of_mem (mem_edgesCells he hc))
      rw [visitKeys, Trie.tag_node]
      apply spec_prefixLength hb
      refine spec_bind (spec_push A hb buffer) (fun r => ?_)
      rintro m ⟨rfl, hm⟩
      refine (?_ : Spec (Holds S) _ _ _) m hm
      apply spec_refcount hb
      apply spec_edgecount hb
      dsimp only
      rw [← report_own]
      generalize hown : report func (buffer ++ p) (if rc > 0 then [[]] else []) arg = arg'
      refine spec_bind (Q := fun s m => s = (buffer ++ p, report func (buffer ++ p) (edgesKeyList es) arg') ∧ Holds S m)
        ?_ (fun s => ?_)
      · -- the children before i have been reported
        refine Spec.mono (spec_range (I := fun i s m =>
          s = (buffer ++ p, report func (buffer ++ p) (edgesKeyList (es.take i)) arg') ∧ Holds S m) _ ?_)
          (fun m hm => ⟨by simp [edgesKeyList, report], hm⟩) (fun _ _ h => by simpa [slots_length] using h) (fun _ h => h)
        rintro i hi s m ⟨rfl, hm⟩
        rw [slots_length] at hi
        have he : es[i]? = some es[i] := List.getElem?_eq_getElem hi
        have hheight : height es[i].2 ≤ edgesHeight es := height_child (List.getElem_mem hi)
        refine (?_ : Spec (Holds S) _ _ _) m hm
        apply spec_nodeAt hb (e := (es[i].1, es[i].2.tag)) (by simp [slots, he])
        rw [edgesKeyList_take he, report_append]
        exact ih (by omega) (hchild _ (List.getElem_mem hi)) _ _
      · rintro m ⟨rfl, hm⟩
        refine (?_ : Spec (Holds S) _ _ _) m hm
        apply spec_prefixLength hb
        dsimp only
        rw [popBacks _ _ _ List.length_range, pure_bind]
        refine spec_pure (fun _ hm => ⟨?_, hm⟩)
        rw [keyList, report_map, report_append, hown]

theorem visitKeys_eq {T : Trie Addr} {m : Mem Block} (hm : Holds (cells T) m) {C : List (Frame Addr)} {t : Trie Addr}
    (hT : plug C t = T) (buffer : List UInt8) (arg : σ) :
    visitKeys A func m.cells.keys.card t.tag buffer arg m = .ok ((buffer, report func buffer (keyList t) arg), m) := by
  have hcells : cells T = cells t + ctxCells C t.tag := by rw [← hT, cells_plug]
  have hcard : m.cells.keys.card = Multiset.card (cells t) + Multiset.card (ctxCells C t.tag) := by
    rw [← Finset.card_val, holds_keys hm, Multiset.card_map, hcells, Multiset.card_add]
  have hsub (c : Addr × Block) (hc : c ∈ cells t) : c ∈ cells T := by
    rw [hcells]
    exact Multiset.mem_add.mpr (Or.inl hc)
  have hheight : height t ≤ m.cells.keys.card := (height_le_card t).trans (by omega)
  obtain ⟨r, m', hvisit, rfl, -⟩ :=
    (spec_visitKeys A func _ hheight hsub buffer arg m hm).exists_ok
  have hkeeps := visitKeys_keeps A func m m.cells.keys.card t.tag buffer arg m rfl
  rw [hvisit] at hkeeps
  rw [hvisit, hkeeps.1]

theorem apply_eq {T : Trie Addr} {m : Mem Block} (hm : Holds (cells T) m) (w : UInt64) (arg : σ) :
    apply A ⟨T.tag, w⟩ func arg m = .ok (report func [] (keyList T) arg, m) := by
  rw [apply]
  change Except.bind (visitKeys A func m.cells.keys.card T.tag [] arg m) _ = _
  rw [visitKeys_eq A func hm (C := []) rfl]
  rfl

end Traversal

/-- Applying any callback to the tree amounts to one call for each of the keys,
with the bytes and the length of that key. -/
def Enumerates (A : Allocator Block) (t : RadixTree) (m : Mem Block) (M : Multiset (List UInt8)) : Prop :=
  ∃ L : List (List UInt8), L.Nodup ∧ (∀ k, k ∈ L ↔ k ∈ M) ∧
    ∀ (σ : Type) (func : List UInt8 → Nat → σ → σ) (arg : σ),
      apply A t func arg m = .ok (L.foldl (fun arg k => func k k.length arg) arg, m)

/-- In no memory can a call of visit_keys return with another vector than the
one it was given. -/
def KeepsBuffer (A : Allocator Block) : Prop :=
  ∀ (σ : Type) (func : List UInt8 → Nat → σ → σ) (fuel : Nat) (n : Addr) (buffer : List UInt8) (arg : σ)
    (m m' : Mem Block) (r : List UInt8 × σ), visitKeys A func fuel n buffer arg m = .ok (r, m') → r.1 = buffer ∧ m' = m

/-- Every call on a node of the tree returns, with the vector it was given. -/
def Restores (A : Allocator Block) (t : RadixTree) (m : Mem Block) : Prop :=
  ∀ (σ : Type) (func : List UInt8 → Nat → σ → σ) (n : Addr) (buffer : List UInt8) (arg : σ), Reaches m t.root n →
    ∃ arg', visitKeys A func m.cells.keys.card n buffer arg m = .ok ((buffer, arg'), m)

theorem keepsBuffer (A : Allocator Block) : KeepsBuffer A := by
  intro σ func fuel n buffer arg m m' r h
  have hkeeps := visitKeys_keeps A func m fuel n buffer arg m rfl
  rw [h] at hkeeps
  exact ⟨hkeeps.2, hkeeps.1⟩

section Placed

variable {T : Trie Addr} {m : Mem Block}

theorem enumerates_of_shaped (hm : Holds (cells T) m) (hT : Shaped T) (A : Allocator Block) (w : UInt64) :
    Enumerates A ⟨T.tag, w⟩ m (keys T) :=
  ⟨keyList T, keyList_nodup hT, fun _ => mem_keyList, fun _ func arg => apply_eq A func hm w arg⟩

theorem restores_of_holds (hm : Holds (cells T) m) (A : Allocator Block) (w : UInt64) : Restores A ⟨T.tag, w⟩ m := by
  intro σ func n buffer arg hn
  obtain ⟨C, t, hplug, rfl⟩ := sub_of_reaches (F := 0) (by rwa [add_zero]) hn
  exact ⟨_, visitKeys_eq A func hm hplug buffer arg⟩

/-- The leaf of a key of length 2^32 is reported as the empty key. -/
theorem stub_not_enumerates {a x : Addr} {y : UInt8} (hm : Holds (cells (stub a x y)) m) (A : Allocator Block)
    (w : UInt64) {k : List UInt8} (hk : k ≠ []) {M : Multiset (List UInt8)} (hM : k ∈ M) :
    ¬Enumerates A ⟨a, w⟩ m M := by
  rintro ⟨L, -, hmem, happly⟩
  -- this callback collects what it is called with
  have hL := happly (List (List UInt8)) (fun k _ L => k :: L) []
  have hstub : apply A ⟨a, w⟩ (fun k _ L => k :: L) [] m = .ok ([[]], m) := apply_eq A _ hm w []
  rw [hstub] at hL
  have hrev : L.reverse = [[]] := by simpa using (congrArg Prod.fst (Except.ok.inj hL)).symm
  have hkL : k ∈ L.reverse := List.mem_reverse.mpr ((hmem k).mpr hM)
  rw [hrev, List.mem_singleton] at hkL
  exact hk hkL

end Placed

/-- The tree that a history within the limits leaves calls back once for each
key that was inserted and not erased. -/
theorem apply_enumerates (A : Allocator Block) (ops : List Op) (h : Limits ops) :
    KeepsBuffer A ∧
      ∃ t m, run A ops emptyMem = .ok (t, m) ∧ Enumerates A t m (ledger ops) ∧ Restores A t m := by
  obtain ⟨T, m, hrun, hT, hcanon, hm⟩ := run_reaches A h.short
  obtain ⟨L, hnodup, hmem, happly⟩ := enumerates_of_shaped hm hcanon.shaped A (abstractRun ops).size
  refine ⟨keepsBuffer A, _, m, hrun, ⟨L, hnodup, fun k => ?_, happly⟩, restores_of_holds hm A _⟩
  have hshaped : Shaped (abstractRun ops).tree := (canon_run h.short).shaped
  rw [hmem, mem_keys_iff hcanon.shaped, ← countOf_forget, hT, ← mem_keys_iff hshaped, (agrees_run h).keys]

theorem apply_enumerates_demo :
    KeepsBuffer moving ∧
      ∃ t m, run moving demo emptyMem = .ok (t, m) ∧ Enumerates moving t m (ledger demo) ∧ Restores moving t m :=
  apply_enumerates moving demo demo_limits

theorem unary_not_enumerated {n : Nat} (h : u32 (n + 1) = 0) (hbig : n + 1 < 2 ^ 62) :
    ∃ k : Key, k.size = n + 1 ∧ ∃ t m, run moving [.insert k] emptyMem = .ok (t, m) ∧
      ¬Enumerates moving t m (ledger [.insert k]) := by
  have hk := unary_size 97 (by decide) n
  obtain ⟨a, x, y, m, hrun, -, hm⟩ := run_long moving (unary 97 (by decide) n) (by rwa [hk]) (by rwa [hk])
  have hmem : (unary 97 (by decide) n).bytes ∈ ledger [.insert (unary 97 (by decide) n)] := by simp [ledger, ledgerStep]
  exact ⟨_, hk, _, m, hrun, stub_not_enumerates hm moving _ (Key.ne_nil _) hmem⟩

/-- The key of 2^32 bytes is in the tree and apply does not report it. -/
theorem long_key_not_enumerated :
    ∃ k : Key, k.size = 2 ^ 32 ∧ ∃ t m, run moving [.insert k] emptyMem = .ok (t, m) ∧
      ¬Enumerates moving t m (ledger [.insert k]) :=
  unary_not_enumerated (n := 2 ^ 32 - 1) (by decide) (by omega)

end StudyNotes.Radix.Enumeration
