import StudyNotes.Radix.Traversal

namespace StudyNotes.Radix.LongKeys

open Heap.Program Heap.Triple Node NodeSpec Program KeyTree KeyTreeCases KeyTreeShape Context MatchSpec
open InsertSpec InsertStep PlacedShape Refine Runs HeapShape

def Blank (t : Trie Addr) : Prop := t.bytes = []

theorem path_blank {C : List (Frame Addr)} {t : Trie Addr} (h : AllNodes Blank (plug C t)) : path C = [] := by
  induction C generalizing t with
  | nil => rfl
  | cons f C ih =>
      have hf : f.bytes = [] := (AllNodes.focus (C := C) (t := f.fill t) h).here
      rw [path, hf, List.append_nil]
      exact ih h

theorem stop_blank {T : Trie Addr} (h : AllNodes Blank T) {key : List UInt8} {size : Nat} {C : List (Frame Addr)}
    {t : Trie Addr} {i j : Nat} (hT : plug C t = T) (hs : Stop key size C t i j) : i = 0 := by
  subst hT
  have hp := path_blank h
  have hb : t.bytes = [] := (AllNodes.focus h).here
  cases hs with
  | inside C a rc c x q es y rest => simp at hb
  | full C a rc p es rest =>
      rw [Trie.bytes_node] at hb
      simp [hp, hb]
  | empty f C a rc rest => simp [hp]

theorem calm_blank {T : Trie Addr} (h : AllNodes Blank T) (key : List UInt8) {size : Nat} (hsize : size < 2 ^ 62) :
    Calm key size T where
  size_lt := hsize
  leaves f C a rc hT := by
    subst hT
    exact (AllNodes.focus (C := C) (t := f.fill _) h).here
  stays C t i j hT hs := by
    rw [stop_blank h hT hs]
    exact Nat.zero_le _
  ends := by
    rintro ⟨C, a, rc, c, x, q, es, rfl, -⟩
    have hb : c ++ x :: q = [] := (AllNodes.focus h).here
    simp at hb

/-- What inserting a key of length 2^32 leaves: its leaf has lost the prefix. -/
def stub (a x : Addr) (y : UInt8) : Trie Addr := .node a 0 [] [(y, .node x 1 [] [])]

theorem stub_blank (a x : Addr) (y : UInt8) : AllNodes Blank (stub a x y) :=
  .node rfl (by simpa using .node rfl (by simp))

theorem stub_sound (a x : Addr) (y : UInt8) : AllNodes Sound (stub a x y) := by
  refine .node ⟨?_, by simp, by simp⟩ ?_
  · intro e he
    obtain rfl : e = (y, .node x 1 [] []) := by simpa using he
    exact Or.inl ⟨rfl, rfl⟩
  · intro e he
    obtain rfl : e = (y, .node x 1 [] []) := by simpa using he
    exact .node ⟨by simp [First], by simp, by simp⟩ (by simp)

theorem leafBytes_blank {key : List UInt8} {size : Nat} (h : u32 size = 0) : leafBytes key size 0 = [] := by
  simp [leafBytes, h]

section Steps

variable {A : Allocator Block} {w : UInt64} {F : Multiset (Addr × Block)}

/-- The first key of a tree gets a leaf below the root. -/
theorem insert_first (b : Buffer) (hbig : b.size < 2 ^ 62) (a : Addr) :
    Spec (Holds (cells (.node a 0 [] []) + F)) (insert A ⟨a, w⟩ b.bytes b.size)
      (fun r m => ∃ a' x y, r = (true, ⟨a', w + 1⟩) ∧ b.bytes.head? = some y ∧
        Holds (cells (.node a' 0 [] [(y, .node x 1 (leafBytes b.bytes b.size 0) [])]) + F) m) (fun _ => False) := by
  have hblank : AllNodes Blank (.node a 0 [] []) := .node rfl (by simp)
  have hsound : AllNodes Sound (.node a 0 [] []) := .node ⟨by simp [First], by simp, by simp⟩ (by simp)
  refine Spec.post (insert_spec b.size_pos b.size_le rfl hsound (Or.inl (calm_blank hblank _ hbig))) ?_
  rintro ⟨r, t⟩ m ⟨T', F', hg, rfl, hm⟩
  generalize hT : Trie.node a 0 [] [] = T at hg
  rw [hT] at hblank
  cases hg with
  | edge C a₁ rc p es y rest a' x F hkey hC hi hy hp =>
      obtain rfl : p = [] := (AllNodes.focus hblank).here
      obtain rfl : C = [] := hp.resolve_right (fun h => h rfl)
      cases hT
      refine ⟨a', x, y, rfl, ?_, hm⟩
      rw [hkey]
      rfl
  | adopt f a₁ rc y rest a' x F hkey hf hi => simp [plug, Frame.fill] at hT
  | fork f C a₁ rc c x q es y rest y' a' x₁ x₂ F hkey hxy hC hi hc hy =>
      have hb : c ++ x :: q = [] := (AllNodes.focus hblank).here
      simp at hb
  | inside f C a₁ rc c x q es y rest a' x₂ F hkey hC hi hc =>
      have hb : c ++ x :: q = [] := (AllNodes.focus hblank).here
      simp at hb
  | copy f C a₁ rc p es rest F hkey hC hi hp => exact absurd (AllNodes.focus hblank).here hp

/-- The next key with the same first byte takes the empty leaf for the root. -/
theorem insert_after_long {y : UInt8} (k : Key) (hk : k.bytes.head? = some y) (hbig : k.size < 2 ^ 62) (a x : Addr) :
    Spec (Holds (cells (stub a x y))) (insert A ⟨a, w⟩ k.buffer k.size)
      (fun r m => ∃ a' x' y' l, r = (true, ⟨a', w + 1⟩) ∧
        Holds (cells (.node a' 1 [] [(y', .node x' 1 l [])]) + (a, ⟨0, [], [(y, x)]⟩) ::ₘ 0) m)
      (fun _ => False) := by
  have hblank := stub_blank a x y
  have hspec : Spec (Holds (cells (stub a x y) + 0)) (insert A ⟨(stub a x y).tag, w⟩ k.buffer k.size)
      (Inserted k.buffer k.size w (stub a x y) 0) (fun _ => False) :=
    insert_spec k.size_pos k.size_le rfl (stub_sound a x y) (Or.inl (calm_blank hblank _ hbig))
  rw [add_zero] at hspec
  refine Spec.post hspec ?_
  rintro ⟨b, t⟩ m ⟨T', F', hg, rfl, hm⟩
  generalize hT : stub a x y = T at hg
  rw [hT] at hblank
  cases hg with
  | edge C a₁ rc p es z rest a' x' F hkey hC hi hy hp =>
      obtain rfl : p = [] := (AllNodes.focus hblank).here
      obtain rfl : C = [] := hp.resolve_right (fun h => h rfl)
      cases hT
      obtain ⟨k', hk'⟩ := List.head?_eq_some_iff.mp hk
      rw [Key.buffer, hk'] at hkey
      simp only [path, List.nil_append, List.cons_append, List.cons.injEq] at hkey
      simp [labels, hkey.1] at hy
  | adopt f a₁ rc z rest a' x' F hkey hf hi =>
      obtain ⟨ft, frc, fb, fl, flab, fr⟩ := f
      simp only [stub, plug, Frame.fill, Trie.node.injEq] at hT
      obtain ⟨rfl, rfl, rfl, hes⟩ := hT
      have hlen := congrArg List.length hes
      simp only [List.length_append, List.length_cons, List.length_nil] at hlen
      obtain rfl : fl = [] := List.length_eq_zero_iff.mp (by omega)
      obtain rfl : fr = [] := List.length_eq_zero_iff.mp (by omega)
      simp only [List.nil_append, List.cons.injEq, Prod.mk.injEq, Trie.node.injEq, and_true] at hes
      obtain ⟨rfl, rfl, rfl⟩ := hes
      refine ⟨a', x', z, leafBytes k.buffer k.size 0, rfl, ?_⟩
      simpa [ctxCells, slots, edgesCells] using hm
  | fork f C a₁ rc c z q es y rest y' a' x₁ x₂ F hkey hxy hC hi hc hy =>
      have hb : c ++ z :: q = [] := (AllNodes.focus hblank).here
      simp at hb
  | inside f C a₁ rc c z q es y rest a' x₂ F hkey hC hi hc =>
      have hb : c ++ z :: q = [] := (AllNodes.focus hblank).here
      simp at hb
  | copy f C a₁ rc p es rest F hkey hC hi hp => exact absurd (AllNodes.focus hblank).here hp

theorem contains_blank {T : Trie Addr} (hblank : AllNodes Blank T) (hsound : AllNodes Sound T) (k : Key) :
    Spec (Holds (cells T + F)) (contains ⟨T.tag, w⟩ k.buffer k.size) (fun r _ => r = false) (fun _ => False) := by
  have hends : ¬EndsInside k.buffer k.size T := by
    rintro ⟨C, a, rc, c, x, q, es, rfl, -⟩
    have hb : c ++ x :: q = [] := (AllNodes.focus hblank).here
    simp at hb
  refine Spec.post (contains_spec k.size_pos k.size_le hsound (Or.inl hends)) ?_
  rintro r m ⟨-, C, t, i, j, hT, hs, rfl⟩
  rw [decide_eq_false_iff_not]
  rintro ⟨hi, -⟩
  have hpos := k.size_pos
  rw [stop_blank hblank hT hs] at hi
  omega

end Steps

/-- A history of one key. -/
theorem runCalls_first (A : Allocator Block) (b : Buffer) (hbig : b.size < 2 ^ 62) :
    ∃ a x y m, runCalls A [.insert b] emptyMem = .ok (⟨a, 1⟩, m) ∧ b.bytes.head? = some y ∧
      Holds (cells (.node a 0 [] [(y, .node x 1 (leafBytes b.bytes b.size 0) [])])) m := by
  have hspec : Spec (Holds 0) (runCalls A [.insert b])
      (fun t m => ∃ a x y, t = ⟨a, 1⟩ ∧ b.bytes.head? = some y ∧
        Holds (cells (.node a 0 [] [(y, .node x 1 (leafBytes b.bytes b.size 0) [])])) m) (fun _ => False) := by
    rw [runCalls]
    refine spec_bind (radixTree_spec A) (fun t => ?_)
    rintro m ⟨⟨a, rc, p, es⟩, hT, rfl, hm⟩
    simp only [forget, emptyTree, Trie.node.injEq, true_and] at hT
    obtain ⟨rfl, rfl, hes⟩ := hT
    obtain rfl : es = [] := by
      have hlen := forgetEdges_length es
      rw [hes] at hlen
      exact List.length_eq_zero_iff.mp hlen.symm
    rw [← add_zero (cells _)] at hm
    refine (?_ : Spec (Holds (cells (.node a 0 [] []) + 0)) _ _ _) m hm
    simp only [List.foldlM_cons, List.foldlM_nil, bind_pure]
    refine spec_bind (insert_first b hbig a) (fun r => ?_)
    rintro m ⟨a', x, y, rfl, hy, hm⟩
    rw [add_zero] at hm
    exact ⟨a', x, y, rfl, hy, hm⟩
  obtain ⟨t, m, hrun, a, x, y, rfl, hy, hm⟩ := (hspec emptyMem holds_empty).exists_ok
  exact ⟨a, x, y, m, hrun, hy, hm⟩

/-- A history of one long key. -/
theorem run_long (A : Allocator Block) (k : Key) (hk : u32 k.size = 0) (hbig : k.size < 2 ^ 62) :
    ∃ a x y m, run A [.insert k] emptyMem = .ok (⟨a, 1⟩, m) ∧ k.bytes.head? = some y ∧
      Holds (cells (stub a x y)) m := by
  obtain ⟨a, x, y, m, hrun, hy, hm⟩ := runCalls_first A (terminated k) hbig
  have hleaf : leafBytes (terminated k).bytes (terminated k).size 0 = [] := leafBytes_blank hk
  rw [hleaf] at hm
  refine ⟨a, x, y, m, by rwa [run_eq_runCalls], ?_, hm⟩
  obtain ⟨z, k', hz⟩ := List.exists_cons_of_ne_nil k.ne_nil
  change (k.bytes ++ [0]).head? = some y at hy
  rwa [hz] at hy ⊢

end StudyNotes.Radix.LongKeys
