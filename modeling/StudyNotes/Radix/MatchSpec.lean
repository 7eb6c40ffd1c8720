import StudyNotes.Radix.Program
import StudyNotes.Radix.NodeSpec
import StudyNotes.Radix.Context

namespace StudyNotes.Radix.MatchSpec

open Heap.Program Heap.Triple Node NodeSpec Program KeyTree KeyTreeCases KeyTreeShape Context

variable {γ : Type}

/-- A child either has the first byte that its edge announces, or is one of
the empty leaves that truncated lengths leave behind. -/
def First (t : Trie Addr) : Prop :=
  ∀ e ∈ t.edges, (e.2.bytes = [] ∧ e.2.edges = []) ∨ e.2.bytes.head? = some e.1

def edgeIndexOf : List (Frame Addr) → Nat
  | [] => 0
  | f :: _ => f.left.length

def parentOf : List (Frame Addr) → Addr → Addr
  | [], a => a
  | f :: _, _ => f.tag

/-- The value of j left by the loop at the node above. -/
def lastLength : List (Frame Addr) → Nat
  | [] => 0
  | f :: _ => f.bytes.length

/-- The result of match for a position in the tree. -/
def located (C : List (Frame Addr)) (a : Addr) (i j : Nat) : MatchResult :=
  ⟨i, j, edgeIndexOf C, edgeIndexOf C.tail, a, parentOf C a, parentOf C.tail (parentOf C a)⟩

/-- The positions at which the walk for a key can stop: at a byte of the prefix
that differs, at the end of the prefix, or at an empty leaf. -/
inductive Stop (key : List UInt8) (size : Nat) : List (Frame Addr) → Trie Addr → Nat → Nat → Prop
  | inside (C : List (Frame Addr)) (a : Addr) (rc : UInt32) (c : List UInt8) (x : UInt8)
      (q : List UInt8) (es : Edges Addr) (y : UInt8) (rest : List UInt8)
      (hkey : key = path C ++ (c ++ y :: rest)) (hxy : x ≠ y) (hC : Follows C (c ++ y :: rest))
      (hlt : (path C).length < size) :
      Stop key size C (.node a rc (c ++ x :: q) es) ((path C).length + c.length) c.length
  | full (C : List (Frame Addr)) (a : Addr) (rc : UInt32) (p : List UInt8) (es : Edges Addr)
      (rest : List UInt8) (hkey : key = path C ++ (p ++ rest)) (hC : Follows C (p ++ rest))
      (hlt : (path C).length < size) (hp : C = [] ∨ p ≠ [])
      (hend : size ≤ (path C).length + p.length ∨ ∀ y ∈ rest.head?, y ∉ labels es) :
      Stop key size C (.node a rc p es) ((path C).length + p.length) p.length
  | empty (f : Frame Addr) (C : List (Frame Addr)) (a : Addr) (rc : UInt32) (rest : List UInt8)
      (hkey : key = path (f :: C) ++ rest) (hC : Follows (f :: C) rest)
      (hlt : (path (f :: C)).length < size) :
      Stop key size (f :: C) (.node a rc [] []) (path (f :: C)).length f.bytes.length

/-- The buffer ends inside the prefix of a node that the walk enters, so the loop
reads past it. -/
def EndsInside (key : List UInt8) (size : Nat) (t : Trie Addr) : Prop :=
  ∃ C a rc c x q es, t = plug C (.node a rc (c ++ x :: q) es) ∧ key = path C ++ c ∧ Follows C c ∧
    (path C).length < size

theorem keyAt_append (u : List UInt8) (y : UInt8) (k : List UInt8) :
    keyAt (u ++ y :: k) u.length = pure y := by
  simp [keyAt]

theorem matchPrefix_full (u p rest : List UInt8) (j : Nat) :
    matchPrefix (u ++ (p ++ rest)) p u.length j = pure (u.length + p.length, j + p.length) := by
  induction p generalizing u j with
  | nil => rfl
  | cons c p ih =>
      rw [matchPrefix, List.cons_append, keyAt_append, pure_bind, if_neg (by simp)]
      have h := ih (u ++ [c]) (j + 1)
      simp only [List.append_assoc, List.cons_append, List.nil_append, List.length_append,
        List.length_cons, List.length_nil, Nat.zero_add] at h
      rw [h, List.length_cons]
      congr 2 <;> omega

theorem matchPrefix_inside (u c : List UInt8) (x : UInt8) (q : List UInt8) (y : UInt8)
    (rest : List UInt8) (hxy : x ≠ y) (j : Nat) :
    matchPrefix (u ++ (c ++ y :: rest)) (c ++ x :: q) u.length j =
      pure (u.length + c.length, j + c.length) := by
  induction c generalizing u j with
  | nil => simp [matchPrefix, keyAt_append, hxy]
  | cons d c ih =>
      rw [List.cons_append, List.cons_append, matchPrefix, keyAt_append, pure_bind, if_neg (by simp)]
      have h := ih (u ++ [d]) (j + 1)
      simp only [List.append_assoc, List.cons_append, List.nil_append, List.length_append,
        List.length_cons, List.length_nil, Nat.zero_add] at h
      rw [h, List.length_cons]
      congr 2 <;> omega

theorem matchPrefix_over (u c : List UInt8) (x : UInt8) (q : List UInt8) (j : Nat) :
    matchPrefix (u ++ c) (c ++ x :: q) u.length j = fail .outOfBounds := by
  induction c generalizing u j with
  | nil =>
      rw [List.nil_append, List.append_nil, matchPrefix, keyAt, List.getElem?_eq_none (Nat.le_refl _)]
      rfl
  | cons d c ih =>
      rw [List.cons_append, matchPrefix, keyAt_append, pure_bind, if_neg (by simp)]
      have h := ih (u ++ [d]) (j + 1)
      simpa using h

section Rules

variable {S : Multiset (Addr × Block)} {Q : γ → Mem Block → Prop} {E : Fault → Prop}
variable {n : Addr} {b : Block} {key : List UInt8} {size i : Nat}

theorem findEdge_done (h : size ≤ i) (remaining k : Nat) :
    findEdge n key size i remaining k = pure none := by
  induction remaining generalizing k with
  | zero => rfl
  | succ remaining ih => rw [findEdge, if_neg (by omega), ih]

theorem spec_findEdge_absent {f : Option Nat → NodeM γ} {y : UInt8} (hb : (n, b) ∈ S) (hi : i < size)
    (hy : keyAt key i = pure y) (l r : List (UInt8 × Addr)) (hes : b.edges = l ++ r)
    (hr : y ∉ r.map Prod.fst) (h : Spec (Holds S) (f none) Q E) :
    Spec (Holds S) (findEdge n key size i r.length l.length >>= f) Q E := by
  induction r generalizing l with
  | nil => exact h
  | cons e r ih =>
      simp only [List.map_cons, List.mem_cons, not_or] at hr
      rw [List.length_cons, findEdge, if_pos hi, bind_assoc]
      apply spec_firstByteAt hb (e := e) (by simp [hes])
      rw [hy, bind_assoc, pure_bind, if_neg (Ne.symm hr.1)]
      have h' := ih (l ++ [e]) (by simp [hes]) hr.2
      simpa using h'

theorem spec_findEdge_found {f : Option Nat → NodeM γ} {y : UInt8} (hb : (n, b) ∈ S) (hi : i < size)
    (hy : keyAt key i = pure y) (l r : List (UInt8 × Addr)) (x : Addr) (r' : List (UInt8 × Addr))
    (hes : b.edges = l ++ (r ++ (y, x) :: r')) (hr : y ∉ r.map Prod.fst)
    (h : Spec (Holds S) (f (some (l.length + r.length))) Q E) :
    Spec (Holds S) (findEdge n key size i (r ++ (y, x) :: r').length l.length >>= f) Q E := by
  induction r generalizing l with
  | nil =>
      rw [List.nil_append, List.length_cons, findEdge, if_pos hi, bind_assoc]
      apply spec_firstByteAt hb (e := (y, x)) (by simp [hes])
      rw [hy, bind_assoc, pure_bind, if_pos rfl]
      exact h
  | cons e r ih =>
      simp only [List.map_cons, List.mem_cons, not_or] at hr
      rw [List.cons_append, List.length_cons, findEdge, if_pos hi, bind_assoc]
      apply spec_firstByteAt hb (e := e) (by simp [hes])
      rw [hy, bind_assoc, pure_bind, if_neg (Ne.symm hr.1)]
      have h' := ih (l ++ [e]) (by simp [hes]) hr.2 (by
        rw [show (l ++ [e]).length + r.length = l.length + (e :: r).length by simp; omega]
        exact h)
      simpa using h'

theorem spec_of_nodup {x : NodeM γ} (h : (S.map Prod.fst).Nodup → Spec (Holds S) x Q E) :
    Spec (Holds S) x Q E :=
  fun m hm => h hm.nodup m hm

end Rules

theorem mem_cells (t : Trie Addr) : (t.tag, blockOf t) ∈ cells t := by
  obtain ⟨a, rc, p, es⟩ := t
  rw [cells]
  exact Multiset.mem_cons_self _ _

theorem mem_cells_plug (C : List (Frame Addr)) (t : Trie Addr) :
    (t.tag, blockOf t) ∈ cells (plug C t) := by
  rw [cells_plug]
  exact Multiset.mem_add.mpr (Or.inl (mem_cells t))

theorem labels_slots (es : Edges Addr) : (slots es).map Prod.fst = labels es := by
  simp [slots, labels]

theorem slots_append (es es' : Edges Addr) : slots (es ++ es') = slots es ++ slots es' := by
  simp [slots]

theorem slots_cons (b : UInt8) (t : Trie Addr) (es : Edges Addr) :
    slots ((b, t) :: es) = (b, t.tag) :: slots es := rfl

theorem slots_length (es : Edges Addr) : (slots es).length = es.length := by
  simp [slots]

theorem mem_edgesCells {es : Edges Addr} {e : UInt8 × Trie Addr} (he : e ∈ es) {c : Addr × Block}
    (hc : c ∈ cells e.2) : c ∈ edgesCells es := by
  induction es with
  | nil => simp at he
  | cons e' es ih =>
      obtain ⟨b, t⟩ := e'
      rw [edgesCells, Multiset.mem_add]
      rcases List.mem_cons.mp he with rfl | he
      · exact Or.inl hc
      · exact Or.inr (ih he)

/-- A child is never placed at the address of its parent. -/
theorem child_tag_ne {C : List (Frame Addr)} {a : Addr} {rc : UInt32} {p : List UInt8}
    {es : Edges Addr} {F : Multiset (Addr × Block)}
    (hn : ((cells (plug C (.node a rc p es)) + F).map Prod.fst).Nodup)
    {e : UInt8 × Trie Addr} (he : e ∈ es) : e.2.tag ≠ a := by
  rw [cells_plug, cells, Multiset.cons_add, Multiset.cons_add, Multiset.map_cons, Multiset.nodup_cons] at hn
  intro heq
  apply hn.1
  rw [← heq]
  have hmem := mem_edgesCells he (mem_cells e.2)
  refine Multiset.mem_map_of_mem Prod.fst (a := (e.2.tag, blockOf e.2)) ?_
  exact Multiset.mem_add.mpr (Or.inl (Multiset.mem_add.mpr (Or.inl hmem)))

theorem first_focus {f : Frame Addr} {C : List (Frame Addr)} {t : Trie Addr}
    (h : AllNodes First (plug (f :: C) t)) : (t.bytes = [] ∧ t.edges = []) ∨ t.bytes.head? = some f.label :=
  (AllNodes.focus (C := C) (t := f.fill t) h).here (f.label, t) (by simp [Frame.fill])

theorem first_prefix {C : List (Frame Addr)} {a : Addr} {rc : UInt32} {p : List UInt8} {es : Edges Addr}
    (h : AllNodes First (plug C (.node a rc p es))) (hne : ¬(p = [] ∧ es = [])) : C = [] ∨ p ≠ [] := by
  cases C with
  | nil => exact Or.inl rfl
  | cons f C =>
      right
      rintro rfl
      rcases first_focus h with h | h
      · exact hne ⟨rfl, h.2⟩
      · simp at h

/-- A step down the tree leaves enough fuel. -/
theorem fuel_down {size fuel length : Nat} {C : List (Frame Addr)} {p : List UInt8} (hp : C = [] ∨ p ≠ [])
    (h : size + (if C = [] then 2 else 1) ≤ fuel + 1 + length) : size + 1 ≤ fuel + (length + p.length) := by
  rcases hp with rfl | hp
  · rw [if_pos rfl] at h
    omega
  · have hpos := List.length_pos_iff.mpr hp
    split at h <;> omega

/-- The walk ends at a stop of the tree. -/
theorem spec_stop {key : List UInt8} {size : Nat} {F : Multiset (Addr × Block)} {T : Trie Addr}
    {C : List (Frame Addr)} {t : Trie Addr} {i j : Nat} {E : Fault → Prop} (hT : plug C t = T)
    (hs : Stop key size C t i j) :
    Spec (Holds (cells T + F)) (pure (located C t.tag i j) : NodeM MatchResult)
      (fun r m => Holds (cells T + F) m ∧ ∃ C' t' i j, plug C' t' = T ∧ r = located C' t'.tag i j ∧
        Stop key size C' t' i j) E :=
  spec_pure fun _ hm => ⟨hm, C, t, i, j, hT, rfl, hs⟩

/-- The walk from a position ends at a stop of the same tree, unless the buffer
itself ends inside a prefix. The induction is on the fuel, which does not run
out because every iteration below the root consumes a byte of the key. -/
theorem matchLoop_spec {key : List UInt8} {size : Nat} (hsize : size ≤ key.length)
    {F : Multiset (Addr × Block)} (fuel : Nat) (C : List (Frame Addr)) (t : Trie Addr) (k : List UInt8)
    (hfirst : AllNodes First (plug C t)) (hkey : key = path C ++ k) (hC : Follows C k)
    (hlt : (path C).length < size)
    (hfuel : size + (if C = [] then 2 else 1) ≤ fuel + (path C).length) :
    Spec (Holds (cells (plug C t) + F))
      (matchLoop key size fuel (located C t.tag (path C).length (lastLength C)))
      (fun r m => Holds (cells (plug C t) + F) m ∧ ∃ C' t' i j, plug C' t' = plug C t ∧
        r = located C' t'.tag i j ∧ Stop key size C' t' i j)
      (fun e => e = .outOfBounds ∧ EndsInside key size (plug C t)) := by
  induction fuel generalizing C t k with
  | zero => split at hfuel <;> omega
  | succ fuel ih =>
      obtain ⟨a, rc, p, es⟩ := t
      have hb : (a, ⟨rc, p, slots es⟩) ∈ cells (plug C (.node a rc p es)) + F :=
        Multiset.mem_add.mpr (Or.inl (mem_cells_plug C (.node a rc p es)))
      rw [matchLoop]
      apply spec_prefixLength hb
      apply spec_edgecount hb
      dsimp only
      by_cases hz : p = [] ∧ es = []
      · obtain ⟨rfl, rfl⟩ := hz
        rw [if_neg (by simp [slots])]
        cases C with
        | nil => exact spec_stop rfl (.full [] a rc [] [] k hkey hC hlt (Or.inl rfl) (Or.inr (by simp [labels])))
        | cons f C => exact spec_stop rfl (.empty f C a rc k hkey hC hlt)
      · have hguard : p.length > 0 ∨ (slots es).length > 0 := by
          rw [slots_length]
          by_contra hn
          exact hz ⟨List.length_eq_zero_iff.mp (by omega), List.length_eq_zero_iff.mp (by omega)⟩
        have hp : C = [] ∨ p ≠ [] := first_prefix hfirst hz
        rw [if_pos ⟨hguard, hlt⟩]
        apply spec_prefixChunk hb
        dsimp only [located]
        rcases Words.CommonPrefix.common_cases p k with rfl | ⟨y, k', rfl⟩ | ⟨x, p', rfl⟩ |
          ⟨c, x, p', y, k', rfl, rfl, hxy⟩
        · -- the buffer ends with the prefix
          have hm := matchPrefix_full (path C) p [] 0
          rw [List.append_nil, ← hkey, Nat.zero_add] at hm
          have hlen : size ≤ (path C).length + p.length := by
            rw [hkey, List.length_append] at hsize
            exact hsize
          rw [hm, pure_bind]
          dsimp only
          rw [if_neg (by simp), findEdge_done hlen, pure_bind]
          exact spec_stop rfl (.full C a rc p es [] (by simpa using hkey) (by simpa using hC) hlt hp (Or.inl hlen))
        · have hm := matchPrefix_full (path C) p (y :: k') 0
          rw [← hkey, Nat.zero_add] at hm
          rw [hm, pure_bind]
          dsimp only
          rw [if_neg (by simp)]
          by_cases hlen : size ≤ (path C).length + p.length
          · rw [findEdge_done hlen, pure_bind]
            exact spec_stop rfl (.full C a rc p es (y :: k') hkey hC hlt hp (Or.inl hlen))
          · have hat : keyAt key ((path C).length + p.length) = pure y := by
              have h := keyAt_append (path C ++ p) y k'
              rwa [List.append_assoc, ← hkey, List.length_append] at h
            rcases find_label y es with hn | ⟨l, t, r, rfl, hl⟩
            · apply spec_findEdge_absent hb (by omega) hat [] (slots es) rfl (by rwa [labels_slots])
              exact spec_stop rfl (.full C a rc p es (y :: k') hkey hC hlt hp (Or.inr (by simpa using hn)))
            · have hs : slots (l ++ (y, t) :: r) = slots l ++ (y, t.tag) :: slots r := by
                rw [slots_append, slots_cons]
              rw [hs]
              rw [hs] at hb
              apply spec_findEdge_found hb (by omega) hat [] (slots l) t.tag (slots r) rfl
                (by rwa [labels_slots])
              apply spec_nodeAt hb (e := (y, t.tag)) (by simp)
              apply spec_of_nodup
              intro hnodup
              refine spec_ite (fun heq => absurd heq (child_tag_ne hnodup (e := (y, t)) (by simp))) (fun _ => ?_)
              rw [List.length_nil, Nat.zero_add, slots_length]
              have hlen' : (path (⟨a, rc, p, l, y, r⟩ :: C)).length = (path C).length + p.length := by
                simp [path]
              have h := ih (⟨a, rc, p, l, y, r⟩ :: C) t (y :: k') hfirst
                (by rw [path, List.append_assoc]; exact hkey) ⟨rfl, hl, hC⟩ (by omega) (by
                  rw [if_neg (by simp), hlen']
                  exact fuel_down hp hfuel)
              rw [hlen'] at h
              exact h
        · have hm := matchPrefix_over (path C) k x p' 0
          rw [← hkey] at hm
          rw [hm]
          exact fun m _ => ⟨rfl, C, a, rc, k, x, p', es, rfl, hkey, hC, hlt⟩
        · have hm := matchPrefix_inside (path C) c x p' y k' hxy 0
          rw [← hkey, Nat.zero_add] at hm
          rw [hm, pure_bind]
          dsimp only
          rw [if_pos (by simp)]
          exact spec_stop rfl (.inside C a rc c x p' es y k' hkey hxy hC hlt)

/-- Match leaves the tree as it is and stops at one of its positions. -/
theorem matchKey_spec {key : List UInt8} {size : Nat} (hpos : 0 < size) (hsize : size ≤ key.length)
    {F : Multiset (Addr × Block)} (T : Trie Addr) (hfirst : AllNodes First T) (w : UInt64) :
    Spec (Holds (cells T + F)) (matchKey ⟨T.tag, w⟩ key size)
      (fun r m => Holds (cells T + F) m ∧ ∃ C t i j, plug C t = T ∧
        r = located C t.tag i j ∧ Stop key size C t i j)
      (fun e => e = .outOfBounds ∧ EndsInside key size T) := by
  rw [matchKey]
  apply spec_assert_bind hpos
  exact matchLoop_spec hsize (size + 2) [] T key hfirst rfl trivial hpos (by simp [path])

end StudyNotes.Radix.MatchSpec
