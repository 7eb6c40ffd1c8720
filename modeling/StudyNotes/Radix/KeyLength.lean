import StudyNotes.Heap.Relational
import StudyNotes.Radix.Assertions
import StudyNotes.Radix.Traversal

namespace StudyNotes.Radix.KeyLength

open Heap.Program Heap.Triple Heap.Relational Words.CommonPrefix Node NodeSpec Program KeyTree KeyTreeCases
open KeyTreeShape Context MatchSpec InsertSpec InsertStep PlacedShape Refine Runs HeapShape Traversal Assertions

variable {α : Type}

mutual

/-- The byte of a prefix before which a word that leads into it ends. -/
def cutAt (k : List UInt8) : Trie α → Option UInt8
  | .node _ _ p es =>
      match splitCommon p k with
      | (_, [], []) => none
      | (_, [], y :: k') => cutEdges (y :: k') es
      | (_, x :: _, []) => some x
      | (_, _ :: _, _ :: _) => none

def cutEdges (k : List UInt8) : Edges α → Option UInt8
  | [] => none
  | (b, t) :: es => if k.head? = some b then cutAt k t else cutEdges k es

end

section Equations

variable (a : α) (rc : UInt32) (c p k : List UInt8) (x y : UInt8) (es : Edges α)

theorem cutAt_same : cutAt p (.node a rc p es) = none := by
  rw [cutAt, splitCommon_self]

theorem cutAt_below : cutAt (p ++ y :: k) (.node a rc p es) = cutEdges (y :: k) es := by
  rw [cutAt, splitCommon_left]

theorem cutAt_inside : cutAt c (.node a rc (c ++ x :: p) es) = some x := by
  rw [cutAt, splitCommon_right]

theorem cutAt_fork (hxy : x ≠ y) : cutAt (c ++ y :: k) (.node a rc (c ++ x :: p) es) = none := by
  rw [cutAt, splitCommon_fork c p k x y hxy]

theorem cutEdges_absent (h : y ∉ labels es) : cutEdges (y :: k) es = none := by
  induction es with
  | nil => rfl
  | cons e es ih =>
      obtain ⟨b, t⟩ := e
      simp only [labels_cons, List.mem_cons, not_or] at h
      simp [cutEdges, h.1, ih h.2]

theorem cutEdges_found (l : Edges α) (t : Trie α) (r : Edges α) (h : y ∉ labels l) :
    cutEdges (y :: k) (l ++ (y, t) :: r) = cutAt (y :: k) t := by
  induction l with
  | nil => simp [cutEdges]
  | cons e l ih =>
      obtain ⟨b, t'⟩ := e
      simp only [labels_cons, List.mem_cons, not_or] at h
      simp [cutEdges, h.1, ih h.2]

end Equations

theorem cutAt_plug (C : List (Frame α)) (t : Trie α) (k : List UInt8) (h : Follows C k) :
    cutAt (path C ++ k) (plug C t) = cutAt k t := by
  induction C generalizing t k with
  | nil => rfl
  | cons f C ih =>
      obtain ⟨hk, hl, hC⟩ := h
      rw [path, plug, List.append_assoc, ih _ _ hC]
      obtain ⟨k', rfl⟩ := List.head?_eq_some_iff.mp hk
      rw [Frame.fill, cutAt_below, cutEdges_found _ _ _ _ _ hl]

theorem cutAt_forget (t : Trie α) (k : List UInt8) : cutAt k (forget t) = cutAt k t := by
  induction t using tree_induct generalizing k with
  | h a rc p es ih =>
      have hedges (y : UInt8) (k' : List UInt8) : cutEdges (y :: k') (forgetEdges es) = cutEdges (y :: k') es := by
        induction es with
        | nil => rfl
        | cons e es ihes =>
            obtain ⟨b, t⟩ := e
            rw [forgetEdges, cutEdges, cutEdges, ih (b, t) (by simp), ihes (fun e he => ih e (by simp [he]))]
      rw [forget]
      rcases common_cases p k with rfl | ⟨y, k', rfl⟩ | ⟨x, p', rfl⟩ | ⟨c, x, p', y, k', rfl, rfl, hxy⟩
      · rw [cutAt_same, cutAt_same]
      · rw [cutAt_below, cutAt_below, hedges]
      · rw [cutAt_inside, cutAt_inside]
      · rw [cutAt_fork _ _ _ _ _ _ _ _ hxy, cutAt_fork _ _ _ _ _ _ _ _ hxy]

/-- Where the n bytes of the key end inside a prefix, the buffer goes on with a
byte that differs from the prefix's. -/
def Clear (b : List UInt8) (n : Nat) (T : Trie α) : Prop :=
  ∀ x, cutAt (b.take n) T = some x → ∃ y, b[n]? = some y ∧ y ≠ x

section Walks

variable {b : List UInt8} {n : Nat} {C : List (Frame Addr)} {t : Trie Addr} {i j : Nat}

theorem cut_take {u k : List UInt8} (a : Addr) (rc : UInt32) (z : UInt8) (w : List UInt8) (es : Edges Addr)
    (hb : b = path C ++ (u ++ k)) (hn : n = (path C).length + u.length) (hlt : (path C).length < n)
    (hC : Follows C (u ++ k)) : cutAt (b.take n) (plug C (.node a rc (u ++ z :: w) es)) = some z := by
  have hu : u ≠ [] := by
    rintro rfl
    simp only [List.length_nil] at hn
    omega
  obtain ⟨d, u, rfl⟩ := List.exists_cons_of_ne_nil hu
  have htake : b.take n = path C ++ (d :: u) := by
    rw [hb, ← List.append_assoc, hn, ← List.length_append, List.take_left]
  rw [htake, cutAt_plug _ _ _ (follows_congr (by simp) hC), cutAt_inside]

/-- A walk that stays in the key is not cut, except before a byte that differs. -/
theorem clear_of_stop (hn : n ≤ b.length) (hs : Stop b n C t i j) (hi : i ≤ n) : Clear b n (plug C t) := by
  intro z hz
  cases hs with
  | inside C a rc c x q es y rest hkey hxy hC hlt =>
      rcases Nat.eq_or_lt_of_le hi with heq | hlt'
      · rw [cut_take a rc x q es hkey heq.symm hlt hC, Option.some.injEq] at hz
        refine ⟨y, ?_, fun h => hxy (hz.trans h.symm)⟩
        rw [hkey, ← heq, ← List.append_assoc, ← List.length_append]
        simp
      · have hkey' : b = (path C ++ c) ++ y :: rest := by rw [hkey, List.append_assoc]
        obtain ⟨v, hv⟩ := take_cons (y := y) (v := rest) (Nat.sub_pos_of_lt hlt')
        rw [take_split hkey' (by simpa using hi), List.append_assoc, List.length_append, hv,
          cutAt_plug _ _ _ (follows_congr (by simp [List.head?_append]) hC), cutAt_fork _ _ _ _ _ _ _ _ hxy] at hz
        cases hz
  | full C a rc p es rest hkey hC hlt hp hend =>
      have hkey' : b = (path C ++ p) ++ rest := by rw [hkey, List.append_assoc]
      rw [take_split hkey' (by simpa using hi), List.append_assoc, List.length_append] at hz
      rcases Nat.eq_or_lt_of_le hi with heq | hlt'
      · have hp0 : p ≠ [] := by
          rintro rfl
          simp only [List.length_nil] at heq
          omega
        obtain ⟨d, p, rfl⟩ := List.exists_cons_of_ne_nil hp0
        rw [heq, Nat.sub_self, List.take_zero, List.append_nil,
          cutAt_plug _ _ _ (follows_congr (by simp) hC), cutAt_same] at hz
        cases hz
      · cases rest with
        | nil =>
            rw [hkey] at hn
            simp only [List.length_append, List.length_nil] at hn
            omega
        | cons y rest =>
            obtain ⟨v, hv⟩ := take_cons (y := y) (v := rest) (Nat.sub_pos_of_lt hlt')
            have hy : y ∉ labels es := hend.resolve_left (by omega) y rfl
            rw [hv, cutAt_plug _ _ _ (follows_congr (by simp [List.head?_append]) hC), cutAt_below,
              cutEdges_absent _ _ _ hy] at hz
            cases hz
  | empty f C a rc rest hkey hC hlt =>
      cases rest with
      | nil =>
          rw [hkey] at hn
          simp only [List.length_append, List.length_nil] at hn
          omega
      | cons y rest =>
          obtain ⟨v, hv⟩ := take_cons (y := y) (v := rest) (Nat.sub_pos_of_lt hlt)
          have hbelow := cutAt_below a rc [] v y []
          rw [List.nil_append] at hbelow
          rw [take_split hkey hi, hv, cutAt_plug _ _ _ (follows_congr (by simp) hC), hbelow] at hz
          cases hz

theorem exists_split {p : List UInt8} {d : Nat} (h : d < p.length) : ∃ u z v, p = u ++ z :: v ∧ u.length = d :=
  ⟨p.take d, p[d], p.drop (d + 1), by simp, by simp; omega⟩

/-- A walk that goes past the key was cut before a byte that the buffer repeats. -/
theorem not_clear_of_cut {u v w : List UInt8} {z : UInt8} (a : Addr) (rc : UInt32) (es : Edges Addr)
    (hb : b = path C ++ (u ++ z :: v)) (hn : n = (path C).length + u.length) (hlt : (path C).length < n)
    (hC : Follows C (u ++ z :: v)) : ¬Clear b n (plug C (.node a rc (u ++ z :: w) es)) := by
  intro h
  obtain ⟨y, hy, hne⟩ := h z (cut_take a rc z w es hb hn hlt hC)
  rw [hb, hn, ← List.append_assoc, ← List.length_append] at hy
  simp only [List.getElem?_append_right (Nat.le_refl _), Nat.sub_self, List.getElem?_cons_zero,
    Option.some.injEq] at hy
  exact hne hy.symm

theorem le_of_clear (hs : Stop b n C t i j) (h : Clear b n (plug C t)) : i ≤ n := by
  by_contra hover
  cases hs with
  | inside C a rc c x q es y rest hkey hxy hC hlt =>
      have hd : n - (path C).length < c.length := by omega
      obtain ⟨u, z, v, rfl, hu⟩ := exists_split hd
      rw [List.append_assoc, List.cons_append] at hkey hC h
      exact not_clear_of_cut a rc es hkey (by omega) hlt hC h
  | full C a rc p es rest hkey hC hlt hp hend =>
      have hd : n - (path C).length < p.length := by omega
      obtain ⟨u, z, v, rfl, hu⟩ := exists_split hd
      rw [List.append_assoc, List.cons_append] at hkey hC
      exact not_clear_of_cut a rc es hkey (by omega) hlt hC h
  | empty f C a rc rest hkey hC hlt => omega

theorem not_endsInside_of_clear {T : Trie Addr} (hn : n ≤ b.length) (h : Clear b n T) : ¬EndsInside b n T := by
  rintro ⟨C, a, rc, c, x, q, es, rfl, hkey, hC, hlt⟩
  have hlen : n ≤ (path C).length + c.length := by rwa [hkey, List.length_append] at hn
  rcases Nat.eq_or_lt_of_le hlen with heq | hover
  · rw [← List.append_nil c] at hkey hC
    obtain ⟨y, hy, -⟩ := h x (cut_take a rc x q es hkey heq hlt hC)
    rw [List.append_nil] at hkey
    rw [hkey, heq, ← List.length_append, List.getElem?_length] at hy
    cases hy
  · have hd : n - (path C).length < c.length := by omega
    obtain ⟨u, z, v, rfl, hu⟩ := exists_split hd
    rw [List.append_assoc, List.cons_append] at h
    exact not_clear_of_cut a rc es hkey (by omega) hlt hC h

/-- Match stays in the key exactly when the walk is clear. -/
theorem matchKey_stays_iff {T : Trie Addr} {F : Multiset (Addr × Block)} {m : Mem Block} (w : UInt64) (hpos : 0 < n)
    (hn : n ≤ b.length) (hfirst : AllNodes First T) (hm : Holds (cells T + F) m) :
    (∃ r m', matchKey ⟨T.tag, w⟩ b n m = .ok (r, m') ∧ r.nkey ≤ n) ↔ Clear b n T := by
  have hspec := matchKey_spec hpos hn T hfirst w m hm
  constructor
  · rintro ⟨r, m', hr, hle⟩
    rw [hr] at hspec
    obtain ⟨-, C, t, i, j, rfl, rfl, hs⟩ := hspec
    exact clear_of_stop hn hs hle
  · intro h
    cases hr : matchKey ⟨T.tag, w⟩ b n m with
    | ok p =>
        rw [hr] at hspec
        obtain ⟨-, C, t, i, j, rfl, heq, hs⟩ := hspec
        refine ⟨p.1, p.2, rfl, ?_⟩
        rw [heq]
        exact le_of_clear hs h
    | error e =>
        rw [hr] at hspec
        exact absurd hspec.2 (not_endsInside_of_clear hn h)

end Walks

section Buffers

variable {b b' : List UInt8} {n : Nat}

theorem keyAt_agree (h : b.take n = b'.take n) {i : Nat} (hi : i < n) : keyAt b i = keyAt b' i := by
  have hget := congrArg (fun l => l[i]?) h
  simp only [List.getElem?_take, if_pos hi] at hget
  rw [keyAt, keyAt, hget]

theorem matchPrefix_cases (b cs : List UInt8) (i j : Nat) :
    (∃ i' j', matchPrefix b cs i j = pure (i', j') ∧ i ≤ i') ∨ matchPrefix b cs i j = fail .outOfBounds := by
  induction cs generalizing i j with
  | nil => exact Or.inl ⟨i, j, rfl, Nat.le_refl i⟩
  | cons c cs ih =>
      rw [matchPrefix, keyAt]
      cases b[i]? with
      | none => exact Or.inr rfl
      | some k =>
          simp only [pure_bind]
          by_cases hck : c ≠ k
          · rw [if_pos hck]
            exact Or.inl ⟨i, j, rfl, Nat.le_refl i⟩
          · rw [if_neg hck]
            refine (ih (i + 1) (j + 1)).imp ?_ id
            rintro ⟨i', j', h, hle⟩
            exact ⟨i', j', h, by omega⟩

theorem pure_inj {γ : Type} {v w : γ} (h : (pure v : NodeM γ) = pure w) : v = w := by
  have h0 := congrFun h emptyMem
  cases h0
  rfl

theorem fail_ne_pure {γ : Type} {e : Fault} {v : γ} (h : (fail e : NodeM γ) = pure v) : False := by
  have h0 := congrFun h emptyMem
  cases h0

theorem matchPrefix_le {b cs : List UInt8} {i j i' j' : Nat} (h : matchPrefix b cs i j = pure (i', j')) : i ≤ i' := by
  rcases matchPrefix_cases b cs i j with ⟨i₁, j₁, h₁, hle⟩ | hf
  · rw [h] at h₁
    cases pure_inj h₁
    exact hle
  · rw [hf] at h
    exact (fail_ne_pure h).elim

theorem matchPrefix_cons {b cs : List UInt8} {c : UInt8} {i j i' j' : Nat}
    (h : matchPrefix b (c :: cs) i j = pure (i', j')) :
    ∃ k, b[i]? = some k ∧ ((c ≠ k ∧ i' = i ∧ j' = j) ∨ (c = k ∧ matchPrefix b cs (i + 1) (j + 1) = pure (i', j'))) := by
  rw [matchPrefix, keyAt] at h
  cases hk : b[i]? with
  | none =>
      rw [hk] at h
      exact (fail_ne_pure h).elim
  | some k =>
      rw [hk] at h
      simp only [pure_bind] at h
      refine ⟨k, rfl, ?_⟩
      by_cases hck : c ≠ k
      · rw [if_pos hck] at h
        cases pure_inj h
        exact Or.inl ⟨hck, rfl, rfl⟩
      · rw [if_neg hck] at h
        exact Or.inr ⟨not_not.mp hck, h⟩

theorem matchPrefix_agree (h : b.take n = b'.take n) {cs : List UInt8} {i j i₁ j₁ i₂ j₂ : Nat}
    (h₁ : matchPrefix b cs i j = pure (i₁, j₁)) (h₂ : matchPrefix b' cs i j = pure (i₂, j₂)) (hi₁ : i₁ ≤ n)
    (hi₂ : i₂ ≤ n) : (i₁, j₁) = (i₂, j₂) := by
  induction cs generalizing i j with
  | nil => rw [← pure_inj h₁, ← pure_inj h₂]
  | cons c cs ih =>
      obtain ⟨k₁, hk₁, hc₁⟩ := matchPrefix_cons h₁
      obtain ⟨k₂, hk₂, hc₂⟩ := matchPrefix_cons h₂
      have hsame (hi : i < n) : k₁ = k₂ := by
        have hget := congrArg (fun l => l[i]?) h
        simpa only [List.getElem?_take, if_pos hi, hk₁, hk₂, Option.some.injEq] using hget
      rcases hc₁ with ⟨hne₁, rfl, rfl⟩ | ⟨rfl, hrec₁⟩ <;> rcases hc₂ with ⟨hne₂, rfl, rfl⟩ | ⟨rfl, hrec₂⟩
      · rfl
      · exact absurd (hsame (by have := matchPrefix_le hrec₂; omega)).symm hne₁
      · exact absurd (hsame (by have := matchPrefix_le hrec₁; omega)) hne₂
      · exact ih hrec₁ hrec₂

theorem findEdge_agree (h : b.take n = b'.take n) (current : Addr) (i count k : Nat) :
    findEdge current b n i count k = findEdge current b' n i count k := by
  induction count generalizing k with
  | zero => rfl
  | succ count ih =>
      rw [findEdge, findEdge, ih]
      by_cases hi : i < n
      · rw [if_pos hi, if_pos hi, keyAt_agree h hi]
      · rw [if_neg hi, if_neg hi]

/-- The rest of an iteration of match, once the prefix has been compared. -/
def afterPrefix (b : List UInt8) (n fuel : Nat) (s : MatchResult) (length count : Nat) (ij : Nat × Nat) :
    NodeM MatchResult :=
  if ij.2 ≠ length then pure { s with nkey := ij.1, nPrefix := ij.2 }
  else do
    match ← findEdge s.currentNode b n ij.1 count 0 with
    | none => pure { s with nkey := ij.1, nPrefix := ij.2 }
    | some k => do
        let next ← nodeAt s.currentNode k
        if next = s.currentNode then
          pure { s with nkey := ij.1, nPrefix := ij.2, gpEdgeIndex := s.edgeIndex, edgeIndex := k }
        else
          matchLoop b n fuel ⟨ij.1, ij.2, k, s.edgeIndex, next, s.currentNode, s.parentNode⟩

theorem matchLoop_succ (b : List UInt8) (n fuel : Nat) (s : MatchResult) :
    matchLoop b n (fuel + 1) s = (do
      let length ← prefixLength s.currentNode
      let count ← edgecount s.currentNode
      if (length > 0 ∨ count > 0) ∧ s.nkey < n then do
        let bytes ← prefixChunk s.currentNode
        matchPrefix b bytes s.nkey 0 >>= afterPrefix b n fuel s length count
      else pure s) := rfl

theorem afterPrefix_le {b : List UInt8} {n fuel : Nat}
    (ih : ∀ s, Spec (fun _ => True) (matchLoop b n fuel s) (fun r _ => s.nkey ≤ r.nkey) (fun _ => True))
    (s : MatchResult) (length count : Nat) (ij : Nat × Nat) :
    Spec (fun _ => True) (afterPrefix b n fuel s length count ij) (fun r _ => ij.1 ≤ r.nkey) (fun _ => True) := by
  rw [afterPrefix]
  refine spec_ite (fun _ => spec_pure (fun _ _ => Nat.le_refl _)) (fun _ => ?_)
  refine spec_bind spec_any (fun o => ?_)
  cases o with
  | none => exact spec_pure (fun _ _ => Nat.le_refl _)
  | some k =>
      refine spec_bind spec_any (fun next => ?_)
      refine spec_ite (fun _ => spec_pure (fun _ _ => Nat.le_refl _)) (fun _ => ?_)
      exact ih _

theorem matchLoop_le (b : List UInt8) (n fuel : Nat) (s : MatchResult) :
    Spec (fun _ => True) (matchLoop b n fuel s) (fun r _ => s.nkey ≤ r.nkey) (fun _ => True) := by
  induction fuel generalizing s with
  | zero => exact spec_fail trivial
  | succ fuel ih =>
      rw [matchLoop_succ]
      refine spec_bind spec_any (fun length => spec_bind spec_any (fun count => ?_))
      refine spec_ite (fun _ => ?_) (fun _ => spec_pure (fun _ _ => Nat.le_refl _))
      refine spec_bind spec_any (fun bytes => ?_)
      rcases matchPrefix_cases b bytes s.nkey 0 with ⟨i, j, h, hle⟩ | h
      · rw [h, pure_bind]
        exact Spec.post (afterPrefix_le ih s length count (i, j)) (fun _ _ hr => hle.trans hr)
      · rw [h]
        exact fun _ _ => trivial

theorem matchLoop_agree (h : b.take n = b'.take n) (fuel : Nat) (s : MatchResult) :
    Agree (fun r => r.nkey ≤ n) (matchLoop b n fuel s) (matchLoop b' n fuel s) := by
  induction fuel generalizing s with
  | zero => exact agree_refl _
  | succ fuel ih =>
      rw [matchLoop_succ, matchLoop_succ]
      refine agree_bind (fun length => agree_bind (fun count => agree_ite (fun _ => ?_) (fun _ => agree_refl _)))
      refine agree_bind (fun bytes => ?_)
      rcases matchPrefix_cases b bytes s.nkey 0 with ⟨i₁, j₁, h₁, -⟩ | h₁
      · rcases matchPrefix_cases b' bytes s.nkey 0 with ⟨i₂, j₂, h₂, -⟩ | h₂
        · rw [h₁, h₂, pure_bind, pure_bind]
          by_cases hi₁ : i₁ ≤ n
          · by_cases hi₂ : i₂ ≤ n
            · rw [matchPrefix_agree h h₁ h₂ hi₁ hi₂, afterPrefix, afterPrefix, findEdge_agree h]
              refine agree_ite (fun _ => agree_refl _) (fun _ => agree_bind (fun o => ?_))
              cases o with
              | none => exact agree_refl _
              | some k =>
                  exact agree_bind (fun next => agree_ite (fun _ => agree_refl _) (fun _ => ih _))
            · exact agree_symm (agree_of_left (Spec.post (afterPrefix_le (matchLoop_le b' n fuel) s length count
                (i₂, j₂)) (fun _ _ hr hle => hi₂ (hr.trans hle))))
          · exact agree_of_left (Spec.post (afterPrefix_le (matchLoop_le b n fuel) s length count (i₁, j₁))
              (fun _ _ hr hle => hi₁ (hr.trans hle)))
        · rw [h₂]
          exact agree_symm (agree_of_left (fun _ _ => trivial))
      · rw [h₁]
        exact agree_of_left (fun _ _ => trivial)

theorem matchKey_agree (h : b.take n = b'.take n) (t : RadixTree) :
    Agree (fun r => r.nkey ≤ n) (matchKey t b n) (matchKey t b' n) := by
  rw [matchKey, matchKey]
  exact agree_bind (fun _ => matchLoop_agree h _ _)

end Buffers

section Leaves

variable {A : Allocator Block} {P : Mem Block → Prop} {x : Addr} {L : Nat}

def HasPrefix (x : Addr) (L : Nat) (m : Mem Block) : Prop :=
  ∃ blk, m.cells.lookup x = some blk ∧ blk.prefixBytes.length = L

theorem load_keeps (n : Addr) : Spec P (load n) (fun _ => P) (fun _ => True) := by
  intro m hm
  rw [load]
  cases m.cells.lookup n with
  | some blk => exact hm
  | none => trivial

theorem read_keeps {γ : Type} (n : Addr) (f : Block → γ) :
    Spec P (load n >>= fun blk => pure (f blk)) (fun _ => P) (fun _ => True) :=
  spec_bind (load_keeps n) (fun _ => spec_pure (fun _ h => h))

theorem assert_keeps (p : Prop) [Decidable p] : Spec P (assert p) (fun _ => P) (fun _ => True) := by
  rw [assert]
  exact spec_ite (fun _ => spec_pure (fun _ h => h)) (fun _ => spec_fail trivial)

theorem makeNode_hasPrefix (refs bytes edges : Nat) :
    Spec P (makeNode A refs bytes edges) (fun x => HasPrefix x (u32 bytes)) (fun _ => True) := by
  have hmalloc : Spec P (malloc A (blockSize bytes edges) (fun g =>
      (⟨UInt32.ofNat refs, List.replicate (u32 bytes) g, List.replicate (u32 edges) (g, 0)⟩ : Block)))
      (fun x => HasPrefix x (u32 bytes)) (fun _ => True) := by
    intro m _
    rw [malloc]
    by_cases hbig : maxRequest < blockSize bytes edges
    · rw [if_pos hbig]
      trivial
    · rw [if_neg hbig]
      exact ⟨_, Finmap.lookup_insert _, List.length_replicate⟩
  rw [makeNode]
  refine spec_ite (fun _ => spec_fail trivial) (fun _ => spec_bind hmalloc (fun x => ?_))
  exact spec_bind (assert_keeps _) (fun _ => spec_pure (fun _ h => h))

theorem makeNode_keeps (refs bytes edges : Nat) :
    Spec (HasPrefix x L) (makeNode A refs bytes edges) (fun _ => HasPrefix x L) (fun _ => True) := by
  have hmalloc (init : UInt8 → Block) :
      Spec (HasPrefix x L) (malloc A (blockSize bytes edges) init) (fun _ => HasPrefix x L) (fun _ => True) := by
    rintro m ⟨blk, hblk, hlen⟩
    rw [malloc]
    by_cases hbig : maxRequest < blockSize bytes edges
    · rw [if_pos hbig]
      trivial
    · rw [if_neg hbig]
      refine ⟨blk, ?_, hlen⟩
      have hne : x ≠ A.malloc m (blockSize bytes edges) := by
        intro heq
        rw [heq] at hblk
        exact A.malloc_fresh m _ (Finmap.mem_iff.mpr ⟨blk, hblk⟩)
      exact (Finmap.lookup_insert_of_ne _ hne).trans hblk
  rw [makeNode]
  refine spec_ite (fun _ => spec_fail trivial) (fun _ => spec_bind (hmalloc _) (fun _ => ?_))
  exact spec_bind (assert_keeps _) (fun _ => spec_pure (fun _ h => h))

theorem splitOff_keeps (current : Addr) (j : Nat) :
    Spec (HasPrefix x L) (splitOff A current j) (fun _ => HasPrefix x L) (fun _ => True) := by
  rw [splitOff]
  refine spec_bind (read_keeps current Block.refcount) (fun refs => ?_)
  refine spec_bind (read_keeps current (fun blk => blk.prefixBytes.length)) (fun length => ?_)
  refine spec_bind (read_keeps current (fun blk => blk.edges.length)) (fun count => ?_)
  exact makeNode_keeps _ _ _

theorem setPrefix_alike {bytes bytes' : List UInt8} (h : L ≤ bytes.length) (h' : L ≤ bytes'.length)
    (heq : bytes.take L = bytes'.take L) : Alike (HasPrefix x L) (setPrefix x bytes) (setPrefix x bytes') := by
  rintro m ⟨blk, hblk, rfl⟩
  have hload : load x m = .ok (blk, m) := by rw [load, hblk]
  rw [setPrefix, setPrefix, bind_of_ok hload, bind_of_ok hload, if_neg (by omega), if_neg (by omega), heq]

variable {b b' : List UInt8} {n : Nat}

theorem drop_agree (h : b.take n = b'.take n) (i : Nat) (hL : L ≤ n - i) :
    (b.drop i).take L = (b'.drop i).take L := by
  have hd := congrArg (fun l => (l.drop i).take L) h
  simpa only [List.drop_take, List.take_take, Nat.min_eq_left hL] using hd

/-- Filling the leaf of a key reads no byte behind it. -/
theorem fillLeaf_alike (h : b.take n = b'.take n) (hb : n ≤ b.length) (hb' : n ≤ b'.length) {i : Nat} (hi : i < n) :
    Alike (HasPrefix x (u32 (sizeSub n i))) (setPrefix x (b.drop i)) (setPrefix x (b'.drop i)) := by
  have hle := u32_le (n - i)
  rw [u32_sizeSub hi.le]
  exact setPrefix_alike (by rw [List.length_drop]; omega) (by rw [List.length_drop]; omega) (drop_agree h i hle)

theorem insertAt_alike (h : b.take n = b'.take n) (hb : n ≤ b.length) (hb' : n ≤ b'.length) (t : RadixTree)
    {r : MatchResult} (hr : r.nkey ≤ n) : Alike (fun _ => True) (insertAt A t b n r) (insertAt A t b' n r) := by
  rw [insertAt, insertAt]
  refine alike_bind spec_any (fun length => ?_)
  by_cases hne : r.nkey ≠ n
  · have hi : r.nkey < n := Nat.lt_of_le_of_ne hr hne
    rw [if_pos hne, if_pos hne]
    by_cases hedge : r.nkey = 0 ∨ r.nPrefix = length
    · rw [if_pos hedge, if_pos hedge, insertEdge, insertEdge, keyAt_agree h hi]
      refine alike_bind (makeNode_hasPrefix _ _ _) (fun x => ?_)
      exact alike_head (fillLeaf_alike h hb hb' hi)
    · rw [if_neg hedge, if_neg hedge, insertSplit, insertSplit]
      refine alike_bind (makeNode_hasPrefix _ _ _) (fun x => ?_)
      refine alike_bind (splitOff_keeps _ _) (fun y => ?_)
      exact alike_head (fillLeaf_alike h hb hb' hi)
  · rw [if_neg hne, if_neg hne]
    exact alike_refl _

end Leaves

/-- The key of length n alone decides what match and insert do. A buffer that ends with the
key gives the same results too: a read of key[i] with n ≤ i would be a fault there. -/
structure Respects (A : Allocator Block) (t : RadixTree) (m : Mem Block) (b b' : List UInt8) (n : Nat) : Prop where
  same : ∃ r m', matchKey t b n m = .ok (r, m') ∧ matchKey t b' n m = .ok (r, m') ∧ r.nkey ≤ n ∧
    matchKey t (b.take n) n m = .ok (r, m')
  insert : insert A t b n m = insert A t b' n m ∧ insert A t b n m = insert A t (b.take n) n m

section Agreement

variable {A : Allocator Block} {T : Trie Addr} {F : Multiset (Addr × Block)} {m : Mem Block}
variable {b b' : List UInt8} {n : Nat}

theorem take_agree (h : b.take n = b'.take n) : b.take n = (b'.take n).take n := by
  rw [h, List.take_take, Nat.min_self]

theorem clear_of_cutAt (h : cutAt (b.take n) T = none) : Clear b n T := by
  intro x hx
  rw [h] at hx
  cases hx

/-- A buffer that ends with the key is clear only if the key is not cut. -/
theorem cutAt_of_clear (h : Clear (b.take n) n T) : cutAt (b.take n) T = none := by
  cases hcut : cutAt (b.take n) T with
  | none => rfl
  | some x =>
      obtain ⟨y, hy, -⟩ := h x (by rwa [List.take_take, Nat.min_self])
      rw [List.getElem?_eq_none (by rw [List.length_take]; exact Nat.min_le_left _ _)] at hy
      cases hy

theorem stays_of_cutAt (w : UInt64) (hpos : 0 < n) (hb : n ≤ b.length) (hfirst : AllNodes First T)
    (hm : Holds (cells T + F) m) (h : cutAt (b.take n) T = none) :
    ∃ r m', matchKey ⟨T.tag, w⟩ b n m = .ok (r, m') ∧ r.nkey ≤ n :=
  (matchKey_stays_iff w hpos hb hfirst hm).2 (clear_of_cutAt h)

/-- Two buffers with the same key give the same match and the same insertion. -/
theorem same_of_stays (h : b.take n = b'.take n) (hb : n ≤ b.length) (hb' : n ≤ b'.length) {t : RadixTree}
    {r r' : MatchResult} {m₁ m₂ : Mem Block} (hr : matchKey t b n m = .ok (r, m₁)) (hle : r.nkey ≤ n)
    (hr' : matchKey t b' n m = .ok (r', m₂)) (hle' : r'.nkey ≤ n) :
    matchKey t b' n m = .ok (r, m₁) ∧ insert A t b n m = insert A t b' n m := by
  obtain ⟨rfl, rfl⟩ := matchKey_agree h _ m r r' m₁ m₂ hr hr' hle hle'
  refine ⟨hr', ?_⟩
  rw [insert_eq, insert_eq, bind_of_ok hr, bind_of_ok hr', insertAt_alike h hb hb' _ hle m₁ trivial]

theorem respects_iff (w : UInt64) (hpos : 0 < n) (hb : n ≤ b.length) (hb' : n ≤ b'.length)
    (h : b.take n = b'.take n) (hfirst : AllNodes First T) (hm : Holds (cells T + F) m) :
    Respects A ⟨T.tag, w⟩ m b b' n ↔ cutAt (b.take n) T = none := by
  have htake : n ≤ (b.take n).length := by rw [List.length_take]; exact Nat.le_min.2 ⟨Nat.le_refl n, hb⟩
  constructor
  · rintro ⟨⟨r, m', -, -, hle, hr⟩, -⟩
    exact cutAt_of_clear ((matchKey_stays_iff w hpos htake hfirst hm).1 ⟨r, m', hr, hle⟩)
  · intro hcut
    obtain ⟨r, m₁, hr, hle⟩ := stays_of_cutAt w hpos hb hfirst hm hcut
    obtain ⟨r₂, m₂, hr₂, hle₂⟩ := stays_of_cutAt w hpos hb' hfirst hm (h ▸ hcut)
    obtain ⟨r₃, m₃, hr₃, hle₃⟩ := stays_of_cutAt w hpos htake hfirst hm (take_agree rfl ▸ hcut)
    obtain ⟨hsame, hinsert⟩ := same_of_stays h hb hb' hr hle hr₂ hle₂
    obtain ⟨hsame', hinsert'⟩ := same_of_stays (take_agree rfl) hb htake hr hle hr₃ hle₃
    exact ⟨⟨r, m₁, hr, hsame, hle, hsame'⟩, hinsert, hinsert'⟩

end Agreement

/-- In every state reached with any keys, the bytes behind a key are not read and play no
part exactly when the key does not end inside the prefix of a node. -/
theorem length_respected_iff (A : Allocator Block) (calls : List Call) (t : RadixTree) (m : Mem Block)
    (hrun : runCalls A calls emptyMem = .ok (t, m)) (n : Nat) (hpos : 0 < n) (b b' : List UInt8) (hb : n ≤ b.length)
    (hb' : n ≤ b'.length) (h : b.take n = b'.take n) :
    ∃ T, readOff m t.root = some T ∧ (Respects A t m b b' n ↔ cutAt (b.take n) T = none) := by
  have hup := runCalls_upright A calls emptyMem holds_empty
  rw [hrun] at hup
  obtain ⟨root, w⟩ := t
  obtain ⟨T, F, hT, -, rfl, hm⟩ := hup
  refine ⟨forget T, readOff_framed hm, ?_⟩
  rw [respects_iff w hpos hb hb' h (first_of_loose hT) hm, cutAt_forget]

def insertAb : List Call := [.insert ⟨[97, 98, 0], 2, by decide, by decide⟩]

theorem insertAb_reaches : ∃ t m T, runCalls moving insertAb emptyMem = .ok (t, m) ∧
    t.root = T.tag ∧ forget T = .node () 0 [] [(97, .node () 1 [97, 98] [])] ∧ AllNodes First T ∧
    Holds (cells T) m := by
  have hshort : ShortKeys [.insert ⟨[97, 98], by decide, by decide⟩] := by
    intro k hk
    obtain rfl : k = ⟨[97, 98], by decide, by decide⟩ := by simpa using hk
    decide
  obtain ⟨T, m, hrun, hT, hcanon, hm⟩ := run_reaches moving hshort
  rw [run_eq_runCalls] at hrun
  exact ⟨_, m, T, hrun, rfl, hT, AllNodes.mono (fun _ h => h.first) (canon_sound hcanon), hm⟩

/-- With the key ab in the tree, the key ac ends behind the place where it leaves the tree. -/
theorem length_respected_ac : ∃ t m, runCalls moving insertAb emptyMem = .ok (t, m) ∧
    Respects moving t m [97, 99, 1] [97, 99, 2] 2 := by
  obtain ⟨⟨root, w⟩, m, T, hrun, rfl, hT, -, hm⟩ := insertAb_reaches
  obtain ⟨T', hT', hiff⟩ := length_respected_iff moving insertAb _ m hrun 2 (by decide) [97, 99, 1] [97, 99, 2]
    (by decide) (by decide) (by decide)
  rw [readOff_framed (F := 0) (by rwa [add_zero]), Option.some.injEq] at hT'
  refine ⟨_, m, hrun, hiff.2 ?_⟩
  rw [← hT', hT]
  decide

/-- With the key ab in the tree, the byte behind the key a is read. -/
theorem overrun_ab : ∃ t m, runCalls moving insertAb emptyMem = .ok (t, m) ∧
    ¬Respects moving t m [97, 98] [97, 99] 1 := by
  obtain ⟨⟨root, w⟩, m, T, hrun, rfl, hT, hfirst, hm⟩ := insertAb_reaches
  refine ⟨_, m, hrun, fun h => ?_⟩
  rw [respects_iff (F := 0) w (by decide) (by decide) (by decide) (by decide) hfirst (by rwa [add_zero]),
    ← cutAt_forget, hT] at h
  exact absurd h (by decide)

end StudyNotes.Radix.KeyLength
