import StudyNotes.Radix.InsertSpec

namespace StudyNotes.Radix.InsertStep

open Heap.Program Heap.Triple Node NodeSpec Program KeyTree KeyTreeCases KeyTreeShape Context MatchSpec InsertSpec

variable {γ : Type}

/-- What every block of a placed tree satisfies, whatever keys were inserted. -/
structure Sound (t : Trie Addr) : Prop where
  first : First t
  short : t.bytes.length < 2 ^ 32
  few : t.edges.length < 2 ^ 10

def Solid (t : Trie Addr) : Prop := ∀ e ∈ t.edges, e.2.bytes ≠ []

/-- The walk for a key does not leave the key, and an empty leaf can only be met
right below the root. -/
structure Calm (key : List UInt8) (size : Nat) (T : Trie Addr) : Prop where
  size_lt : size < 2 ^ 62
  leaves : ∀ f C a rc, plug (f :: C) (.node a rc [] []) = T → f.bytes = []
  stays : ∀ C t i j, plug C t = T → Stop key size C t i j → i ≤ size
  ends : ¬EndsInside key size T

/-- Everything an insertion that returns can have done to the placed tree and to
the blocks F outside it. -/
inductive Grows (key : List UInt8) (size : Nat) :
    Trie Addr → Multiset (Addr × Block) → Bool → Trie Addr → Multiset (Addr × Block) → Prop
  | edge (C : List (Frame Addr)) (a : Addr) (rc : UInt32) (p : List UInt8) (es : Edges Addr) (y : UInt8)
      (rest : List UInt8) (a' x : Addr) (F : Multiset (Addr × Block))
      (hkey : key = path C ++ (p ++ y :: rest)) (hC : Follows C (p ++ y :: rest))
      (hi : (path C).length + p.length < size) (hy : y ∉ labels es) (hp : C = [] ∨ p ≠ []) :
      Grows key size (plug C (.node a rc p es)) F true (plug C (.node a' rc p
        (es ++ [(y, .node x 1 (leafBytes key size ((path C).length + p.length)) [])]))) F
  | adopt (f : Frame Addr) (a : Addr) (rc : UInt32) (y : UInt8) (rest : List UInt8) (a' x : Addr)
      (F : Multiset (Addr × Block)) (hkey : key = y :: rest) (hf : f.bytes = []) (hi : 0 < size) :
      Grows key size (plug [f] (.node a rc [] [])) F true
        (.node a' rc [] [(y, .node x 1 (leafBytes key size 0) [])]) (ctxCells [f] a + F)
  | fork (f : Frame Addr) (C : List (Frame Addr)) (a : Addr) (rc : UInt32) (c : List UInt8) (x : UInt8)
      (q : List UInt8) (es : Edges Addr) (y : UInt8) (rest : List UInt8) (y' : UInt8) (a' x₁ x₂ : Addr)
      (F : Multiset (Addr × Block)) (hkey : key = path (f :: C) ++ (c ++ y :: rest)) (hxy : x ≠ y)
      (hC : Follows (f :: C) (c ++ y :: rest)) (hi : (path (f :: C)).length + c.length < size) (hc : c ≠ [])
      (hy : ∀ z, (leafBytes key size ((path (f :: C)).length + c.length)).head? = some z → y' = z) :
      Grows key size (plug (f :: C) (.node a rc (c ++ x :: q) es)) F true (plug (f :: C) (.node a' 0 c
        [(y', .node x₁ 1 (leafBytes key size ((path (f :: C)).length + c.length)) []),
          (x, .node x₂ rc (x :: q) es)])) F
  | inside (f : Frame Addr) (C : List (Frame Addr)) (a : Addr) (rc : UInt32) (c : List UInt8) (x : UInt8)
      (q : List UInt8) (es : Edges Addr) (y : UInt8) (rest : List UInt8) (a' x₂ : Addr)
      (F : Multiset (Addr × Block)) (hkey : key = path (f :: C) ++ (c ++ y :: rest))
      (hC : Follows (f :: C) (c ++ y :: rest)) (hi : (path (f :: C)).length + c.length = size) (hc : c ≠ []) :
      Grows key size (plug (f :: C) (.node a rc (c ++ x :: q) es)) F true
        (plug (f :: C) (.node a' 1 c [(x, .node x₂ rc (x :: q) es)])) F
  | copy (f : Frame Addr) (C : List (Frame Addr)) (a : Addr) (rc : UInt32) (p : List UInt8) (es : Edges Addr)
      (rest : List UInt8) (F : Multiset (Addr × Block)) (hkey : key = path (f :: C) ++ (p ++ rest))
      (hC : Follows (f :: C) (p ++ rest)) (hi : (path (f :: C)).length + p.length = size) (hp : p ≠ []) :
      Grows key size (plug (f :: C) (.node a rc p es)) F (decide (rc + 1 = 1))
        (plug (f :: C) (.node a (rc + 1) p es)) F

theorem AllNodes.mono {α : Type} {P R : Trie α → Prop} (hPR : ∀ t, P t → R t) {t : Trie α}
    (h : AllNodes P t) : AllNodes R t := by
  induction h with
  | node here below ih => exact .node (hPR _ here) ih

theorem follows_nonempty {f : Frame Addr} {C : List (Frame Addr)} {k : List UInt8} {y : UInt8}
    (h : Follows (f :: C) (y :: k)) : f.label = y := by
  simpa [eq_comm] using h.1

/-- Below the root a mismatch leaves at least the byte of the edge matched. -/
theorem fork_ne_nil {f : Frame Addr} {C : List (Frame Addr)} {a : Addr} {rc : UInt32} {c : List UInt8}
    {x : UInt8} {q : List UInt8} {es : Edges Addr} {y : UInt8} {rest : List UInt8}
    (hfirst : AllNodes First (plug (f :: C) (.node a rc (c ++ x :: q) es))) (hxy : x ≠ y)
    (hC : Follows (f :: C) (c ++ y :: rest)) : c ≠ [] := by
  rintro rfl
  have hl := follows_nonempty hC
  rcases first_focus hfirst with h | h
  · simp at h
  · simp only [Trie.bytes_node, List.nil_append, List.head?_cons, Option.some.injEq] at h
    exact hxy (h.trans hl)

theorem makeNode_under {A : Allocator Block} {refs size i : Nat} {P : Mem Block → Prop}
    {Q : γ → Mem Block → Prop} {E : Fault → Prop} {f : Addr → NodeM γ} (hi : size < i)
    (hd : i - size < 2 ^ 62) (hE : Tolerates E) :
    Spec P (makeNode A refs (sizeSub size i) 0 >>= f) Q E := by
  intro m _
  rw [makeNode]
  by_cases hh : blockSize (sizeSub size i) 0 < headerSize
  · rw [if_pos hh]
    exact hE.bounds
  · have hbig : maxRequest < blockSize (sizeSub size i) 0 := by
      unfold blockSize headerSize sizeSub maxRequest at *
      omega
    rw [if_neg hh, bind_assoc]
    change Ends (Except.bind (malloc A _ _ m) _) Q E
    rw [malloc, if_pos hbig]
    exact hE.memory

section Cases

variable {A : Allocator Block} {key : List UInt8} {size : Nat} {w : UInt64} {F : Multiset (Addr × Block)}
variable {E : Fault → Prop}

/-- The outcome of insert on a given tree. -/
def Inserted (key : List UInt8) (size : Nat) (w : UInt64) (T : Trie Addr) (F : Multiset (Addr × Block))
    (r : Bool × RadixTree) (m : Mem Block) : Prop :=
  ∃ T' F', Grows key size T F r.1 T' F' ∧ r.2 = ⟨T'.tag, w + 1⟩ ∧ Holds (cells T' + F') m

/-- The part of insert after the call to match. -/
def insertAt (A : Allocator Block) (t : RadixTree) (key : List UInt8) (size : Nat) (r : MatchResult) :
    NodeM (Bool × RadixTree) := do
  let length ← prefixLength r.currentNode
  if r.nkey ≠ size then
    if r.nkey = 0 ∨ r.nPrefix = length then insertEdge A t key size r
    else insertSplit A t key size r
  else if r.nPrefix ≠ length then insertPrefix A t r
  else insertCopy t size r

theorem insert_eq (t : RadixTree) : insert A t key size = matchKey t key size >>= insertAt A t key size := rfl

theorem insertAt_inside {f : Frame Addr} {C : List (Frame Addr)} {a : Addr} {rc : UInt32}
    {c : List UInt8} {x : UInt8} {q : List UInt8} {es : Edges Addr} {y : UInt8} {rest : List UInt8}
    (hsize : size ≤ key.length) (hsound : AllNodes Sound (plug (f :: C) (.node a rc (c ++ x :: q) es)))
    (hcalm : (size < 2 ^ 62 ∧ (path (f :: C)).length + c.length ≤ size) ∨ Tolerates E)
    (hkey : key = path (f :: C) ++ (c ++ y :: rest)) (hxy : x ≠ y) (hC : Follows (f :: C) (c ++ y :: rest))
    (hlt : (path (f :: C)).length < size) :
    Spec (Holds (cells (plug (f :: C) (.node a rc (c ++ x :: q) es)) + F))
      (insertAt A ⟨(plug (f :: C) (.node a rc (c ++ x :: q) es)).tag, w⟩ key size
        (located (f :: C) a ((path (f :: C)).length + c.length) c.length))
      (Inserted key size w (plug (f :: C) (.node a rc (c ++ x :: q) es)) F) E := by
  have hnode : Sound (.node a rc (c ++ x :: q) es) := (AllNodes.focus hsound).here
  have hp : (c ++ x :: q).length < 2 ^ 32 := hnode.short
  have hc : c ≠ [] := fork_ne_nil (AllNodes.mono (fun _ h => h.first) hsound) hxy hC
  have hpos := List.length_pos_iff.mpr hc
  have hb := Multiset.mem_add.mpr (Or.inl (b := (a, (⟨rc, c ++ x :: q, slots es⟩ : Block)) ∈ F)
    (mem_cells_plug (f :: C) (.node a rc (c ++ x :: q) es)))
  rw [insertAt]
  apply spec_prefixLength hb
  refine spec_ite (fun hne => ?_) (fun heq => ?_)
  · refine spec_ite (fun h => ?_) (fun _ => ?_)
    · simp [located, hc] at h
    rcases Nat.lt_or_ge ((path (f :: C)).length + c.length) size with hi | hi
    · refine Spec.post (insertSplit_spec _ w hi hsize (hcalm.imp And.left id) hp hnode.few) ?_
      rintro r m ⟨rfl, a', x₁, x₂, y', hy', hm⟩
      refine ⟨_, F, .fork f C a rc c x q es y rest y' a' x₁ x₂ F hkey hxy hC hi hc hy', ?_, hm⟩
      rw [plug_cons_tag]
    · have hover : size < (path (f :: C)).length + c.length := by
        simp only [located, ne_eq] at hne
        omega
      have hE := hcalm.resolve_left (fun h => by omega)
      rw [insertSplit]
      simp only [List.length_append] at hp
      exact makeNode_under hover (by dsimp only [located]; omega) hE
  · have hi : (path (f :: C)).length + c.length = size := by simpa [located] using heq
    refine spec_ite (fun _ => ?_) (fun h => ?_)
    · refine Spec.post (insertPrefix_spec _ w hp hnode.few) ?_
      rintro r m ⟨rfl, a', x₂, hm⟩
      refine ⟨_, F, .inside f C a rc c x q es y rest a' x₂ F hkey hC hi hc, ?_, hm⟩
      rw [plug_cons_tag]
    · simp [located] at h

theorem insertAt_full {C : List (Frame Addr)} {a : Addr} {rc : UInt32} {p : List UInt8} {es : Edges Addr}
    {rest : List UInt8} (hsize : size ≤ key.length) (hroot : (plug C (.node a rc p es)).bytes = [])
    (hsound : AllNodes Sound (plug C (.node a rc p es)))
    (hcalm : (size < 2 ^ 62 ∧ (path C).length + p.length ≤ size) ∨ Tolerates E)
    (hkey : key = path C ++ (p ++ rest)) (hC : Follows C (p ++ rest)) (hlt : (path C).length < size)
    (hp : C = [] ∨ p ≠ [])
    (hend : size ≤ (path C).length + p.length ∨ ∀ y ∈ rest.head?, y ∉ labels es) :
    Spec (Holds (cells (plug C (.node a rc p es)) + F))
      (insertAt A ⟨(plug C (.node a rc p es)).tag, w⟩ key size
        (located C a ((path C).length + p.length) p.length))
      (Inserted key size w (plug C (.node a rc p es)) F) E := by
  have hnode : Sound (.node a rc p es) := (AllNodes.focus hsound).here
  have hshort : p.length < 2 ^ 32 := hnode.short
  have hC0 : p ≠ [] → C ≠ [] := by
    rintro hne rfl
    exact hne hroot
  have hb := Multiset.mem_add.mpr (Or.inl (b := (a, (⟨rc, p, slots es⟩ : Block)) ∈ F)
    (mem_cells_plug C (.node a rc p es)))
  rw [insertAt]
  apply spec_prefixLength hb
  refine spec_ite (fun hne => ?_) (fun heq => ?_)
  · refine spec_ite (fun _ => ?_) (fun h => absurd (Or.inr rfl) h)
    rcases Nat.lt_or_ge ((path C).length + p.length) size with hi | hi
    · cases rest with
      | nil =>
          rw [hkey] at hsize
          simp only [List.length_append, List.length_nil] at hsize
          omega
      | cons y rest =>
          have hy : y ∉ labels es := hend.resolve_left (by omega) y rfl
          have hat : keyAt key ((path C).length + p.length) = pure y := by
            have h := keyAt_append (path C ++ p) y rest
            rwa [List.append_assoc, ← hkey, List.length_append] at h
          refine Spec.post (insertEdge_spec _ w _ hi hsize (hcalm.imp And.left id) hat hshort hnode.few hC0) ?_
          rintro r m ⟨a', x, ⟨hp0, rfl, hm⟩ | ⟨hp0, rfl, hm⟩⟩
          · obtain rfl : C = [] := hp.resolve_right (fun h => h hp0)
            rw [ctxCells, zero_add] at hm
            exact ⟨_, F, .edge [] a rc p es y rest a' x F hkey hC hi hy hp, rfl, hm⟩
          · obtain ⟨f, C, rfl⟩ := List.exists_cons_of_ne_nil (hC0 hp0)
            refine ⟨_, F, .edge (f :: C) a rc p es y rest a' x F hkey hC hi hy hp, ?_, hm⟩
            rw [plug_cons_tag]
    · have hover : size < (path C).length + p.length := by
        simp only [located, ne_eq] at hne
        omega
      have hE := hcalm.resolve_left (fun h => by omega)
      rw [insertEdge]
      exact makeNode_under hover (by dsimp only [located]; omega) hE
  · have hi : (path C).length + p.length = size := by simpa [located] using heq
    refine spec_ite (fun h => absurd rfl h) (fun _ => ?_)
    have hp0 : p ≠ [] := by
      rintro rfl
      simp only [List.length_nil] at hi
      omega
    obtain ⟨f, C, rfl⟩ := List.exists_cons_of_ne_nil (hC0 hp0)
    rw [hi]
    refine Spec.post (insertCopy_spec _ w) ?_
    rintro r m ⟨rfl, hm⟩
    refine ⟨_, F, .copy f C a rc p es rest F hkey hC hi hp0, ?_, hm⟩
    rw [plug_cons_tag]

/-- At an empty leaf the insertion either takes the leaf for the root, or splits
a prefix that is not there. -/
theorem insertAt_empty {f : Frame Addr} {C : List (Frame Addr)} {a : Addr} {rc : UInt32} {rest : List UInt8}
    (hsize : size ≤ key.length) (hsound : AllNodes Sound (plug (f :: C) (.node a rc [] [])))
    (hcalm : (size < 2 ^ 62 ∧ f.bytes = []) ∨ Tolerates E)
    (hkey : key = path (f :: C) ++ rest) (hlt : (path (f :: C)).length < size) :
    Spec (Holds (cells (plug (f :: C) (.node a rc [] [])) + F))
      (insertAt A ⟨(plug (f :: C) (.node a rc [] [])).tag, w⟩ key size
        (located (f :: C) a (path (f :: C)).length f.bytes.length))
      (Inserted key size w (plug (f :: C) (.node a rc [] [])) F) E := by
  have hb := Multiset.mem_add.mpr (Or.inl (b := (a, (⟨rc, [], slots []⟩ : Block)) ∈ F)
    (mem_cells_plug (f :: C) (.node a rc [] [])))
  have hframe : Sound (f.fill (.node a rc [] [])) := (AllNodes.focus (C := C) hsound).here
  rw [insertAt]
  apply spec_prefixLength hb
  refine spec_ite (fun _ => ?_) (fun heq => absurd hlt.ne heq)
  by_cases hf : f.bytes = []
  · -- only the root has an empty prefix and edges
    have hC0 : C = [] := by
      cases C with
      | nil => rfl
      | cons f' C =>
          rcases first_focus (AllNodes.mono (fun _ h => h.first) hsound : AllNodes First (plug (f' :: C) _))
            with h | h
          · simp [Frame.fill] at h
          · simp [Frame.fill, hf] at h
    subst hC0
    have hpath : path [f] = [] := by simp [path, hf]
    refine spec_ite (fun _ => ?_) (fun h => absurd (Or.inl (by simp [located, hpath])) h)
    cases rest with
    | nil =>
        rw [hkey, hpath] at hsize
        simp at hsize
        omega
    | cons y rest =>
        have hkey' : key = y :: rest := by rw [hkey, hpath]; rfl
        have hat : keyAt key (path [f]).length = pure y := by rw [hpath, hkey']; rfl
        have hshort : ([] : List UInt8).length < 2 ^ 32 := by decide
        have hfew : ([] : Edges Addr).length < 2 ^ 10 := by decide
        refine Spec.post (insertEdge_spec _ w _ hlt hsize (hcalm.imp And.left id) hat hshort hfew
          (fun _ => List.cons_ne_nil f [])) ?_
        rintro r m ⟨a', x, ⟨-, rfl, hm⟩ | ⟨h, -⟩⟩
        · rw [hpath] at hm hlt
          exact ⟨_, _, .adopt f a rc y rest a' x F hkey' hf hlt, rfl, hm⟩
        · exact absurd rfl h
  · have hE : Tolerates E := hcalm.resolve_left (fun h => hf h.2)
    have hpos := List.length_pos_iff.mpr hf
    have hshort : f.bytes.length < 2 ^ 32 := hframe.short
    refine spec_ite (fun h => ?_) (fun _ => ?_)
    · simp [located, path, hf] at h
    rw [insertSplit]
    apply spec_makeLeaf hlt (Or.inr hE)
    intro x g
    simp only [splitOff, bind_assoc]
    apply spec_refcount (Multiset.mem_cons_of_mem hb)
    apply spec_prefixLength (Multiset.mem_cons_of_mem hb)
    apply spec_edgecount (Multiset.mem_cons_of_mem hb)
    exact makeNode_under hpos (by dsimp only [located]; simp; omega) hE

/-- An insertion that returns has changed the tree in one of the five ways. It
returns if the walk is calm; otherwise it may run out of memory or of bounds. -/
theorem insert_spec (hpos : 0 < size) (hsize : size ≤ key.length) {T : Trie Addr} (hroot : T.bytes = [])
    (hsound : AllNodes Sound T) (hcalm : Calm key size T ∨ Tolerates E) :
    Spec (Holds (cells T + F)) (insert A ⟨T.tag, w⟩ key size) (Inserted key size w T F) E := by
  have hfirst : AllNodes First T := AllNodes.mono (fun _ h => h.first) hsound
  rw [insert_eq]
  apply spec_bind ((matchKey_spec hpos hsize T hfirst w).mono (fun _ hm => hm) (fun _ _ h => h) ?_)
  · rintro r m ⟨hm, C, t, i, j, rfl, rfl, hstop⟩
    have hin : (size < 2 ^ 62 ∧ i ≤ size) ∨ Tolerates E :=
      hcalm.imp (fun h => ⟨h.size_lt, h.stays C t i j rfl hstop⟩) id
    cases hstop with
    | inside C a rc c x q es y rest hkey hxy hC hlt =>
        cases C with
        | nil => simp [plug] at hroot
        | cons f C => exact insertAt_inside hsize hsound hin hkey hxy hC hlt m hm
    | full C a rc p es rest hkey hC hlt hp hend =>
        exact insertAt_full hsize hroot hsound hin hkey hC hlt hp hend m hm
    | empty f C a rc rest hkey hC hlt =>
        have hleaf : (size < 2 ^ 62 ∧ f.bytes = []) ∨ Tolerates E :=
          hcalm.imp (fun h => ⟨h.size_lt, h.leaves f C a rc rfl⟩) id
        exact insertAt_empty hsize hsound hleaf hkey hlt m hm
  · rintro e ⟨rfl, hend⟩
    exact hcalm.elim (fun h => absurd hend h.ends) (fun h => h.bounds)

end Cases

end StudyNotes.Radix.InsertStep
