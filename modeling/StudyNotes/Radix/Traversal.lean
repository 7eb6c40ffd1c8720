import StudyNotes.Radix.HeapShape

namespace StudyNotes.Radix.Traversal

open Heap.Program Heap.Triple Node NodeSpec Program KeyTree KeyTreeCases KeyTreeShape Context MatchSpec
open PlacedShape HeapShape

variable {γ : Type}

theorem height_child {α : Type} {es : Edges α} {e : UInt8 × Trie α} (he : e ∈ es) : height e.2 ≤ edgesHeight es := by
  induction es with
  | nil => simp at he
  | cons e' es ih =>
      obtain ⟨b, t⟩ := e'
      rw [edgesHeight]
      rcases List.mem_cons.mp he with rfl | he
      · exact Nat.le_max_left _ _
      · exact (ih he).trans (Nat.le_max_right _ _)

theorem height_le_card (t : Trie Addr) : height t ≤ Multiset.card (cells t) := by
  induction t using tree_induct with
  | h a rc p es ih =>
      have hedges : edgesHeight es ≤ Multiset.card (edgesCells es) := by
        induction es with
        | nil => simp [edgesHeight]
        | cons e es ihes =>
            obtain ⟨b, t⟩ := e
            have ht : height t ≤ Multiset.card (cells t) := ih (b, t) List.mem_cons_self
            have hes := ihes (fun e he => ih e (List.mem_cons_of_mem _ he))
            rw [edgesHeight, edgesCells, Multiset.card_add]
            omega
      rw [height, cells, Multiset.card_cons]
      omega

theorem readTree_sub {T : Trie Addr} {F : Multiset (Addr × Block)} {m : Mem Block} (hm : Holds (cells T + F) m)
    (fuel : Nat) {C : List (Frame Addr)} {t : Trie Addr} (hT : plug C t = T) (hfuel : height t ≤ fuel) :
    readTree m fuel t.tag = some (forget t) := by
  induction fuel generalizing C t with
  | zero =>
      obtain ⟨a, rc, p, es⟩ := t
      simp [height] at hfuel
  | succ fuel ih =>
      have hread (e : UInt8 × Trie Addr) (he : e ∈ t.edges) : readTree m fuel e.2.tag = some (forget e.2) := by
        obtain ⟨f, -, -, hf⟩ := plug_child hT he
        obtain ⟨a, rc, p, es⟩ := t
        have hle := height_child he
        rw [height] at hfuel
        exact ih hf (by rw [Trie.edges_node] at hle; omega)
      have hmap : (slots t.edges).mapM (fun e => do
          let t ← readTree m fuel e.2
          return (e.1, t)) = some (forgetEdges t.edges) := by
        generalize t.edges = es at hread
        induction es with
        | nil => rfl
        | cons e es ihes =>
            obtain ⟨b, u⟩ := e
            rw [slots_cons, List.mapM_cons, ihes (fun e he => hread e (List.mem_cons_of_mem _ he)),
              hread (b, u) List.mem_cons_self]
            rfl
      rw [readTree, lookup_sub hm hT]
      dsimp only
      rw [blockOf_edges, hmap, blockOf_prefixBytes, blockOf_refcount]
      obtain ⟨a, rc, p, es⟩ := t
      rfl

theorem readOff_framed {T : Trie Addr} {F : Multiset (Addr × Block)} {m : Mem Block} (hm : Holds (cells T + F) m) :
    readOff m T.tag = some (forget T) := by
  have hcard : m.cells.keys.card = Multiset.card (cells T) + Multiset.card F := by
    rw [← Finset.card_val, holds_keys hm, Multiset.card_map, Multiset.card_add]
  rw [readOff, hcard]
  exact readTree_sub (C := []) hm _ rfl ((height_le_card T).trans (Nat.le_add_right _ _))

/-- Reading the memory back from the root gives the abstract tree. -/
theorem readOff_holds {T : Trie Addr} {m : Mem Block} (hm : Holds (cells T) m) :
    readOff m T.tag = some (forget T) :=
  readOff_framed (F := 0) (by rwa [add_zero])

/-- The destructor frees the blocks of a placed tree, each of them once, and no
other block. -/
theorem spec_freeNodes (fuel : Nat) {t : Trie Addr} (hfuel : height t ≤ fuel) {S : Multiset (Addr × Block)}
    {Q : γ → Mem Block → Prop} {E : Fault → Prop} {g : Unit → NodeM γ} (h : Spec (Holds S) (g ()) Q E) :
    Spec (Holds (cells t + S)) (freeNodes fuel t.tag >>= g) Q E := by
  induction fuel generalizing t S γ with
  | zero =>
      obtain ⟨a, rc, p, es⟩ := t
      simp [height] at hfuel
  | succ fuel ih =>
      obtain ⟨a, rc, p, es⟩ := t
      rw [height] at hfuel
      -- the children behind l are gone, those of r are still there
      have hloop (l r : Edges Addr) (hes : es = l ++ r) {k : Unit → NodeM γ}
          (hk : Spec (Holds ((a, ⟨rc, p, slots es⟩) ::ₘ S)) (k ()) Q E) :
          Spec (Holds ((a, ⟨rc, p, slots es⟩) ::ₘ (edgesCells r + S)))
            ((List.range' l.length r.length).forM (fun i => do
              let child ← nodeAt a i
              freeNodes fuel child) >>= k) Q E := by
        induction r generalizing l with
        | nil => simpa [edgesCells] using hk
        | cons e r ihr =>
            obtain ⟨b, u⟩ := e
            have hheight : height u ≤ fuel := by
              have hmem : (b, u) ∈ es := by simp [hes]
              have hle : height u ≤ edgesHeight es := height_child hmem
              omega
            have hslot : (slots es)[l.length]? = some (b, u.tag) := by
              rw [hes, slots_append, slots_cons, ← slots_length l]
              simp
            rw [List.length_cons, List.range'_succ, List.forM_eq_forM, List.forM_cons, bind_assoc, bind_assoc]
            apply spec_nodeAt (Multiset.mem_cons_self _ _) hslot
            rw [edgesCells, add_assoc, ← Multiset.add_cons]
            apply ih hheight
            have hrest := ihr (l ++ [(b, u)]) (by simp [hes])
            rw [List.length_append, List.length_singleton] at hrest
            exact hrest
      rw [freeNodes, bind_assoc]
      rw [cells, Multiset.cons_add]
      apply spec_edgecount (Multiset.mem_cons_self _ _)
      dsimp only
      rw [bind_assoc, slots_length, List.range_eq_range']
      exact hloop [] es rfl (spec_free_bind h)

end StudyNotes.Radix.Traversal
