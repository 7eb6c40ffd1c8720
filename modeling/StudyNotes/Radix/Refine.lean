import StudyNotes.Radix.PlacedShape

namespace StudyNotes.Radix.Refine

open Heap.Program Heap.Triple Node NodeSpec Program KeyTree KeyTreeCases KeyTreeShape KeyTreeCount Context
open MatchSpec InsertSpec InsertStep EraseSpec EraseStep PlacedShape

/-- A key as main.cpp passes it: the terminating zero follows the counted bytes. -/
structure Key where
  bytes : List UInt8
  ne_nil : bytes ≠ []
  no_zero : (0 : UInt8) ∉ bytes

namespace Key

def buffer (k : Key) : List UInt8 := k.bytes ++ [0]

def size (k : Key) : Nat := k.bytes.length

theorem size_pos (k : Key) : 0 < k.size := List.length_pos_iff.mpr k.ne_nil

theorem size_le (k : Key) : k.size ≤ k.buffer.length := by simp [size, buffer]

@[simp] theorem take_buffer (k : Key) : k.buffer.take k.size = k.bytes := by simp [size, buffer]

end Key

/-- The key of n + 1 equal bytes. -/
def unary (c : UInt8) (hc : c ≠ 0) (n : Nat) : Key where
  bytes := List.replicate (n + 1) c
  ne_nil := by simp
  no_zero := fun h => hc (List.eq_of_mem_replicate h).symm

theorem unary_size (c : UInt8) (hc : c ≠ 0) (n : Nat) : (unary c hc n).size = n + 1 := by
  simp [unary, Key.size]

theorem follows_congr {C : List (Frame Addr)} {k k' : List UInt8} (hk : k.head? = k'.head?)
    (h : Follows C k) : Follows C k' := by
  induction C generalizing k k' with
  | nil => trivial
  | cons f C ih =>
      obtain ⟨hh, hl, hC⟩ := h
      exact ⟨hk ▸ hh, hl, ih (by simp [List.head?_append, hk]) hC⟩

theorem take_eq_leaf {key u rest : List UInt8} {size : Nat} (hkey : key = u ++ rest) (hu : u.length ≤ size)
    (hsize : size < 2 ^ 32) : key.take size = u ++ leafBytes key size u.length := by
  subst hkey
  rw [leafBytes, u32_of_lt (by omega), List.drop_left, List.take_append, List.take_of_length_le hu]

theorem leaf_cons {key u : List UInt8} {y : UInt8} {rest : List UInt8} {size : Nat}
    (hkey : key = u ++ y :: rest) (hu : u.length < size) (hsize : size < 2 ^ 32) :
    ∃ k', leafBytes key size u.length = y :: k' := by
  subst hkey
  rw [leafBytes, u32_of_lt (by omega), List.drop_left]
  obtain ⟨n, hn⟩ := Nat.exists_eq_succ_of_ne_zero (Nat.sub_ne_zero_of_lt hu)
  exact ⟨rest.take n, by rw [hn]; rfl⟩

theorem forgetEdges_concat {α : Type} (es : Edges α) (y : UInt8) (t : Trie α) :
    forgetEdges (es ++ [(y, t)]) = forgetEdges es ++ [(y, forget t)] := by
  rw [forgetEdges_append]
  rfl

theorem insertKey_at {C : List (Frame Addr)} {k : List UInt8} (h : Follows C k) (t : Trie Addr) :
    insertKey (path C ++ k) (forget (plug C t)) = plug (C.map forgetFrame) (insertKey k (forget t)) := by
  rw [forget_plug, ← path_forget, insertKey_plug _ _ _ (follows_forget h)]

theorem countOf_at {C : List (Frame Addr)} {k : List UInt8} (h : Follows C k) (t : Trie Addr) :
    countOf (path C ++ k) (forget (plug C t)) = countOf k t := by
  rw [countOf_forget, countOf_plug _ _ _ h]

/-- Where the walk is calm, insertion does what it does to the abstract tree,
and reports whether the key was absent. -/
theorem grows_pure {key : List UInt8} {size : Nat} {T T' : Trie Addr} {F F' : Multiset (Addr × Block)}
    {r : Bool} (hsize : size < 2 ^ 32) (hsolid : AllNodes Solid T) (h : Grows key size T F r T' F') :
    F' = F ∧ forget T' = insertKey (key.take size) (forget T) ∧
      r = decide (countOf (key.take size) (forget T) = 0) := by
  cases h with
  | edge C a rc p es y rest a' x F hkey hC hi hy hp =>
      have hkey' : key = (path C ++ p) ++ y :: rest := by rw [hkey, List.append_assoc]
      rw [← List.length_append] at hi ⊢
      obtain ⟨k', hk'⟩ := leaf_cons hkey' hi hsize
      have htake := take_eq_leaf hkey' hi.le hsize
      rw [hk', List.append_assoc] at htake
      have hF : Follows C (p ++ y :: k') := follows_congr (by simp [List.head?_append]) hC
      have hy' : y ∉ labels (forgetEdges es) := by rwa [labels_forgetEdges]
      refine ⟨rfl, ?_, ?_⟩
      · rw [htake, insertKey_at hF, forget_plug, forget, forget, insertKey_below, insertEdges_absent _ _ _ hy',
          forgetEdges_concat, hk']
        rfl
      · rw [htake, countOf_at hF, countOf_below, countOfEdges_absent _ _ _ hy]
        rfl
  | adopt f a rc y rest a' x F hkey hf hi =>
      exact absurd rfl (hsolid.here (f.label, .node a rc [] []) (by simp [plug, Frame.fill]))
  | fork f C a rc c x q es y rest y' a' x₁ x₂ F hkey hxy hC hi hc hy =>
      have hkey' : key = (path (f :: C) ++ c) ++ y :: rest := by rw [hkey, List.append_assoc]
      rw [← List.length_append] at hi hy ⊢
      obtain ⟨k', hk'⟩ := leaf_cons hkey' hi hsize
      have htake := take_eq_leaf hkey' hi.le hsize
      rw [hk', List.append_assoc] at htake
      obtain rfl : y' = y := hy y (by rw [hk']; rfl)
      have hF : Follows (f :: C) (c ++ y' :: k') := follows_congr (by simp [List.head?_append]) hC
      refine ⟨rfl, ?_, ?_⟩
      · rw [htake, insertKey_at hF, forget_plug, forget, forget, insertKey_fork _ _ _ _ _ _ _ _ hxy, hk']
        rfl
      · rw [htake, countOf_at hF, countOf_fork _ _ _ _ _ _ _ _ hxy]
        rfl
  | inside f C a rc c x q es y rest a' x₂ F hkey hC hi hc =>
      have htake : key.take size = path (f :: C) ++ c := by
        rw [← hi, ← List.length_append, hkey, ← List.append_assoc, List.take_left]
      have hF : Follows (f :: C) c := follows_congr (by
        obtain ⟨d, c, rfl⟩ := List.exists_cons_of_ne_nil hc
        rfl) hC
      refine ⟨rfl, ?_, ?_⟩
      · rw [htake, insertKey_at hF, forget_plug, forget, forget, insertKey_inside]
        rfl
      · rw [htake, countOf_at hF, countOf_inside]
        rfl
  | copy f C a rc p es rest F hkey hC hi hp =>
      have htake : key.take size = path (f :: C) ++ p := by
        rw [← hi, ← List.length_append, hkey, ← List.append_assoc, List.take_left]
      have hF : Follows (f :: C) p := follows_congr (by
        obtain ⟨d, p, rfl⟩ := List.exists_cons_of_ne_nil hp
        rfl) hC
      refine ⟨rfl, ?_, ?_⟩
      · rw [htake, insertKey_at hF, forget_plug, forget, forget, insertKey_same]
      · rw [htake, countOf_at hF, countOf_same]
        have hone : rc + 1 = 1 ↔ rc = 0 := by
          constructor
          · intro h
            have h' := congrArg (· - 1) h
            simpa using h'
          · rintro rfl
            rfl
        simp [hone]

theorem take_split {key u v : List UInt8} {size : Nat} (hkey : key = u ++ v) (hu : u.length ≤ size) :
    key.take size = u ++ v.take (size - u.length) := by
  rw [hkey, List.take_append, List.take_of_length_le hu]

theorem take_cons {y : UInt8} {v : List UInt8} {n : Nat} (hn : 0 < n) : ∃ v', (y :: v).take n = y :: v' := by
  obtain ⟨n, rfl⟩ := Nat.exists_eq_succ_of_ne_zero hn.ne'
  exact ⟨v.take n, rfl⟩

/-- A walk that stays in the key finds the number of its copies. -/
theorem stop_countOf {key : List UInt8} {size : Nat} {C : List (Frame Addr)} {t : Trie Addr} {i j : Nat}
    (hsize : size ≤ key.length) (hs : Stop key size C t i j) (hi : i ≤ size) :
    countOf (key.take size) (plug C t) = if i = size ∧ j = t.bytes.length then t.refcount else 0 := by
  cases hs with
  | inside C a rc c x q es y rest hkey hxy hC hlt =>
      rw [if_neg (by simp)]
      have hkey' : key = (path C ++ c) ++ y :: rest := by rw [hkey, List.append_assoc]
      rw [take_split hkey' (by simpa using hi), List.append_assoc, List.length_append]
      rcases Nat.eq_or_lt_of_le hi with heq | hlt'
      · have hc : c ≠ [] := by
          rintro rfl
          simp only [List.length_nil] at heq
          omega
        obtain ⟨d, c, rfl⟩ := List.exists_cons_of_ne_nil hc
        rw [heq, Nat.sub_self, List.take_zero, List.append_nil,
          countOf_plug _ _ _ (follows_congr (by simp) hC), countOf_inside]
      · obtain ⟨v, hv⟩ := take_cons (y := y) (v := rest) (Nat.sub_pos_of_lt hlt')
        rw [hv, countOf_plug _ _ _ (follows_congr (by simp [List.head?_append]) hC),
          countOf_fork _ _ _ _ _ _ _ _ hxy]
  | full C a rc p es rest hkey hC hlt hp hend =>
      have hkey' : key = (path C ++ p) ++ rest := by rw [hkey, List.append_assoc]
      rw [take_split hkey' (by simpa using hi), List.append_assoc, List.length_append]
      rcases Nat.eq_or_lt_of_le hi with heq | hlt'
      · have hp0 : p ≠ [] := by
          rintro rfl
          simp only [List.length_nil] at heq
          omega
        obtain ⟨d, p, rfl⟩ := List.exists_cons_of_ne_nil hp0
        rw [if_pos ⟨heq, rfl⟩, heq, Nat.sub_self, List.take_zero, List.append_nil,
          countOf_plug _ _ _ (follows_congr (by simp) hC), countOf_same]
        rfl
      · rw [if_neg (fun h => by omega)]
        cases rest with
        | nil =>
            rw [hkey] at hsize
            simp only [List.length_append, List.length_nil] at hsize
            omega
        | cons y rest =>
            obtain ⟨v, hv⟩ := take_cons (y := y) (v := rest) (Nat.sub_pos_of_lt hlt')
            rw [hv, countOf_plug _ _ _ (follows_congr (by simp [List.head?_append]) hC), countOf_below,
              countOfEdges_absent _ _ _ (hend.resolve_left (by omega) y rfl)]
  | empty f C a rc rest hkey hC hlt =>
      rw [if_neg (fun h => by omega), take_split hkey hi]
      cases rest with
      | nil =>
          rw [hkey] at hsize
          simp only [List.append_nil] at hsize
          omega
      | cons y rest =>
          obtain ⟨v, hv⟩ := take_cons (y := y) (v := rest) (Nat.sub_pos_of_lt hlt)
          rw [hv, countOf_plug _ _ _ (follows_congr (by simp) hC)]
          exact countOf_below a rc [] v y []

theorem hit_take {key : List UInt8} {size : Nat} {C : List (Frame Addr)} {p : List UInt8}
    (h : Hit key size C p) : key.take size = path C ++ p := by
  obtain ⟨rest, hkey, -⟩ := h.follows
  rw [← h.size_eq, ← List.length_append, hkey, ← List.append_assoc, List.take_left]

theorem hit_walk {key : List UInt8} {size : Nat} {C : List (Frame Addr)} {p : List UInt8}
    (h : Hit key size C p) : Follows C p := by
  obtain ⟨rest, -, hC⟩ := h.follows
  obtain ⟨d, p, rfl⟩ := List.exists_cons_of_ne_nil h.ne_nil
  exact follows_congr (by simp) hC

theorem eraseKey_at {f : Frame Addr} {C : List (Frame Addr)} {k : List UInt8} (h : Follows (f :: C) k)
    {t : Trie Addr} {t' : Trie Unit} (he : eraseAt false k (forget t) = .kept t') :
    eraseKey (path (f :: C) ++ k) (forget (plug (f :: C) t)) = plug ((f :: C).map forgetFrame) t' := by
  rw [forget_plug, ← path_forget, eraseKey, eraseAt_plug _ _ _ _ (follows_forget h) he]

theorem eraseKey_dropped {f : Frame Addr} {C : List (Frame Addr)} {k : List UInt8} (h : Follows (f :: C) k)
    {t : Trie Addr} {i : Nat} (he : eraseAt false k (forget t) = .dropped i) :
    eraseKey (path (f :: C) ++ k) (forget (plug (f :: C) t)) = plug (C.map forgetFrame)
      (dropEdge C.isEmpty f.refcount f.bytes
        (forgetEdges f.left ++ (f.label, forget t) :: forgetEdges f.right) (forgetEdges f.left).length) := by
  rw [forget_plug, ← path_forget, eraseKey, List.map_cons,
    eraseAt_plug_dropped (forgetFrame f) (C.map forgetFrame) (forget t) k (follows_forget h) he]
  simp [forgetFrame]

theorem forgetEdges_swapRemove {α : Type} (l : Edges α) (e : UInt8 × Trie α) (r : Edges α) (e' : UInt8 × Trie Unit) :
    forgetEdges (swapRemove l.length (l ++ e :: r)) =
      swapRemove (forgetEdges l).length (forgetEdges l ++ e' :: forgetEdges r) := by
  rcases List.eq_nil_or_concat r with rfl | ⟨r', z, rfl⟩
  · rw [swapRemove_last, forgetEdges, swapRemove_last]
  · rw [List.concat_eq_append, swapRemove_append, forgetEdges_append r', forgetEdges_append]
    simp only [forgetEdges]
    rw [swapRemove_append]

/-- Where the walk stays in the key, erasure does what it does to the abstract
tree, and reports whether the key was there. -/
theorem shrinks_pure {key : List UInt8} {size : Nat} {T T' : Trie Addr} {r : Bool} (hsize : size ≤ key.length)
    (hstays : ∀ C t i j, plug C t = T → Stop key size C t i j → i ≤ size) (h : Shrinks key size T r T') :
    forget T' = eraseKey (key.take size) (forget T) ∧ r = decide (countOf (key.take size) (forget T) ≠ 0) := by
  have hfound {f : Frame Addr} {C : List (Frame Addr)} {a : Addr} {rc : UInt32} {p : List UInt8}
      {es : Edges Addr} (hit : Hit key size (f :: C) p) (hrc : rc ≠ 0) :
      true = decide (countOf (key.take size) (forget (plug (f :: C) (.node a rc p es))) ≠ 0) := by
    rw [hit_take hit, countOf_at (hit_walk hit), countOf_same]
    simp [hrc]
  cases h with
  | missing C t i j hstop h =>
      have hcount := stop_countOf hsize hstop (hstays C t i j rfl hstop)
      have hzero : countOf (key.take size) (forget (plug C t)) = 0 := by
        rw [countOf_forget, hcount]
        split_ifs with hm
        · exact h.resolve_left (fun h => h hm.1) |>.resolve_left (fun h => h hm.2)
        · rfl
      refine ⟨(eraseKey_missing hzero).symm, ?_⟩
      rw [hzero]
      rfl
  | copy f C a rc p es hit hrc hmany =>
      refine ⟨?_, hfound hit hrc⟩
      have he : eraseAt false p (forget (.node a rc p es)) = .kept (.node () (rc - 1) p (forgetEdges es)) := by
        rw [forget, eraseAt_same]
        simp [eraseHere, hrc, hmany]
      rw [hit_take hit, eraseKey_at (hit_walk hit) he, forget_plug]
      rfl
  | branch f C a p es hit hes =>
      refine ⟨?_, hfound hit (by decide)⟩
      have he : eraseAt false p (forget (.node a 1 p es)) = .kept (.node () 0 p (forgetEdges es)) := by
        rw [forget, eraseAt_same]
        rcases es with _ | ⟨e, _ | ⟨e', es'⟩⟩
        · simp at hes
        · simp at hes
        · rfl
      rw [hit_take hit, eraseKey_at (hit_walk hit) he, forget_plug]
      rfl
  | merge f C a c a' p b rc q es hit hfit =>
      refine ⟨?_, hfound hit (by decide)⟩
      have he : eraseAt false p (forget (.node a 1 p [(b, .node c rc q es)])) =
          .kept (.node () rc (p ++ q) (forgetEdges es)) := by
        rw [forget, eraseAt_same]
        rfl
      rw [hit_take hit, eraseKey_at (hit_walk hit) he, forget_plug]
      rfl
  | sibling f g C a o n p b rc q es hit hf he hfit =>
      refine ⟨?_, hfound hit (by decide)⟩
      have hd : eraseAt false p (forget (.node a 1 p [])) = .dropped 0 := by
        rw [forget, eraseAt_same]
        rfl
      have he' : forgetEdges f.left ++ forgetEdges f.right = [(b, .node () rc q (forgetEdges es))] := by
        rw [← forgetEdges_append, he]
        rfl
      rw [hit_take hit, eraseKey_dropped (hit_walk hit) hd, forget_plug]
      rcases dropEdge_cases (g :: C).isEmpty f.refcount f.bytes (forgetEdges f.left)
        (f.label, forget (.node a 1 p [])) (forgetEdges f.right) with ⟨-, -, e, hle, hdrop⟩ | ⟨hn, -⟩
      · rw [hdrop]
        rw [hle, List.singleton_inj] at he'
        rw [he']
        rfl
      · exact absurd ⟨hf, rfl, by rw [he']; rfl⟩ hn
  | edge f C a n p hit hn =>
      refine ⟨?_, hfound hit (by decide)⟩
      have hd : eraseAt false p (forget (.node a 1 p [])) = .dropped 0 := by
        rw [forget, eraseAt_same]
        rfl
      rw [hit_take hit, eraseKey_dropped (hit_walk hit) hd, forget_plug]
      rcases dropEdge_cases C.isEmpty f.refcount f.bytes (forgetEdges f.left)
        (f.label, forget (.node a 1 p [])) (forgetEdges f.right) with ⟨hf, hC, e, hle, -⟩ | ⟨-, hdrop⟩
      · have hlen := congrArg List.length hle
        rw [← forgetEdges_append, forgetEdges_length] at hlen
        exact absurd ⟨hf, hC, hlen⟩ hn
      · rw [hdrop, forget, forgetEdges_swapRemove]

section Steps

variable {A : Allocator Block} {w : UInt64} {F : Multiset (Addr × Block)} {L : List UInt8 → Prop} {T : Trie Addr}

/-- The strings that fit into nodes and cannot run over a terminating zero. -/
def Short (s : List UInt8) : Prop := s.length < 2 ^ 32 ∧ (0 : UInt8) ∉ s

theorem short_closed : PrefixClosed Short := by
  rintro s s' ⟨hlen, hz⟩
  rw [List.length_append] at hlen
  exact ⟨by omega, fun h => hz (List.mem_append.mpr (Or.inl h))⟩

theorem canon_noZero (hT : Canon Short T) : AllNodes NoZero T :=
  noZero_of_within (fun _ hs => hs.2) hT.within

theorem canon_sound (hT : Canon Short T) : AllNodes Sound T :=
  sound_of_shaped (fun _ hs => hs.1) hT.shaped hT.within

theorem canon_calm (hT : Canon Short T) (k : Key) (hk : k.size < 2 ^ 32) : Calm k.buffer k.size T where
  size_lt := by omega
  leaves f C a rc h := by
    subst h
    have hs : Solid (f.fill (.node a rc [] [])) := (AllNodes.focus (C := C) (solid_of_shaped hT.shaped)).here
    exact absurd rfl (hs (f.label, .node a rc [] []) (by simp [Frame.fill]))
  stays _ _ _ _ h hs := stays_of_noZero (canon_noZero hT) h hs
  ends := not_endsInside (canon_noZero hT) k.bytes

theorem insert_refines (hT : Canon Short T) (k : Key) (hk : k.size < 2 ^ 32) :
    Spec (Holds (cells T + F)) (insert A ⟨T.tag, w⟩ k.buffer k.size)
      (fun r m => ∃ T', forget T' = insertKey k.bytes (forget T) ∧
        r = (decide (countOf k.bytes (forget T) = 0), ⟨T'.tag, w + 1⟩) ∧ Holds (cells T' + F) m)
      (fun _ => False) := by
  refine Spec.post (insert_spec k.size_pos k.size_le hT.root (canon_sound hT) (Or.inl (canon_calm hT k hk))) ?_
  rintro ⟨b, t⟩ m ⟨T', F', hg, rfl, hm⟩
  obtain ⟨rfl, hforget, hb⟩ := grows_pure hk (solid_of_shaped hT.shaped) hg
  rw [k.take_buffer] at hforget hb
  exact ⟨T', hforget, by rw [← hb], hm⟩

theorem erase_refines (hT : Canon Short T) (k : Key) :
    Spec (Holds (cells T + F)) (erase A ⟨T.tag, w⟩ k.buffer k.size)
      (fun r m => ∃ T', forget T' = eraseKey k.bytes (forget T) ∧
        r = (decide (countOf k.bytes (forget T) ≠ 0),
          ⟨T'.tag, if countOf k.bytes (forget T) ≠ 0 then w - 1 else w⟩) ∧
        (countOf k.bytes (forget T) = 0 → T' = T) ∧ Holds (cells T' + F) m)
      (fun _ => False) := by
  have hz := canon_noZero hT
  refine Spec.post (erase_spec k.size_pos k.size_le hT.root (canon_sound hT)
    (Or.inl (not_endsInside hz k.bytes)) (Or.inl (roomy_of_within (fun _ hs => hs.1) hT.within))) ?_
  rintro ⟨b, t⟩ m ⟨T', hs, ht, hm⟩
  dsimp only at hs ht
  obtain ⟨hforget, hb⟩ := shrinks_pure k.size_le (fun _ _ _ _ h hs => stays_of_noZero hz h hs) hs
  rw [k.take_buffer] at hforget hb
  refine ⟨T', hforget, ?_, ?_, hm⟩
  · rw [ht, hb]
    simp
  · intro h0
    rw [h0] at hb
    obtain rfl : b = false := by simpa using hb
    cases hs
    rfl

/-- Looking a key up changes no block. -/
theorem contains_spec {key : List UInt8} {size : Nat} {E : Fault → Prop} (hpos : 0 < size)
    (hsize : size ≤ key.length) (hsound : AllNodes Sound T) (hends : ¬EndsInside key size T ∨ E .outOfBounds) :
    Spec (Holds (cells T + F)) (contains ⟨T.tag, w⟩ key size)
      (fun r m => Holds (cells T + F) m ∧ ∃ C t i j, plug C t = T ∧ Stop key size C t i j ∧
        r = decide (i = size ∧ j = t.bytes.length ∧ t.refcount ≠ 0)) E := by
  have hfirst : AllNodes First T := AllNodes.mono (fun _ h => h.first) hsound
  rw [contains]
  refine spec_bind ((matchKey_spec hpos hsize T hfirst w).mono (fun _ hm => hm) (fun _ _ h => h) ?_) (fun r => ?_)
  · rintro e ⟨rfl, he⟩
    exact hends.resolve_left (fun h => h he)
  · rintro m ⟨hm, C, t, i, j, rfl, rfl, hstop⟩
    obtain ⟨a, rc, p, es⟩ := t
    have hb : (a, ⟨rc, p, slots es⟩) ∈ cells (plug C (.node a rc p es)) + F :=
      Multiset.mem_add.mpr (Or.inl (mem_cells_plug C (.node a rc p es)))
    refine (?_ : Spec (Holds (cells (plug C (.node a rc p es)) + F)) _ _ E) m hm
    apply spec_prefixLength hb
    apply spec_refcount hb
    exact spec_pure (fun m hm => ⟨hm, C, _, i, j, rfl, hstop, rfl⟩)

/-- In a tree of short keys the lookup finds the copies of a key. -/
theorem contains_refines (hT : Canon Short T) (k : Key) :
    Spec (Holds (cells T + F)) (contains ⟨T.tag, w⟩ k.buffer k.size)
      (fun r m => r = decide (countOf k.bytes (forget T) ≠ 0) ∧ Holds (cells T + F) m) (fun _ => False) := by
  have hz := canon_noZero hT
  refine Spec.post (contains_spec k.size_pos k.size_le (canon_sound hT)
    (Or.inl (not_endsInside hz k.bytes))) ?_
  rintro r m ⟨hm, C, t, i, j, hC, hstop, rfl⟩
  have hcount := stop_countOf k.size_le hstop (stays_of_noZero hz hC hstop)
  rw [k.take_buffer, hC] at hcount
  refine ⟨?_, hm⟩
  rw [countOf_forget, hcount]
  by_cases h : i = k.size ∧ j = t.bytes.length
  · simp [h]
  · simp only [h, if_false, ne_eq, not_true_eq_false, decide_false, decide_eq_false_iff_not]
    exact fun h' => h ⟨h'.1, h'.2.1⟩

end Steps

end StudyNotes.Radix.Refine
