import StudyNotes.Automaton.Memory

namespace StudyNotes.Automaton.Insertion

open Heap.Program Heap.Triple Words.Suffixes Program Memory

/-- The state of a new root. -/
def State.init : State where
  nodes := Paths.root
  words := ∅
  marks := ∅
  fail _ := none

/-- The nodes that the loop of insert_tree creates. Their failure pointers are null. -/
def State.grow (S : State) (u : Word) : State :=
  { S with
    nodes := S.nodes.addWord u
    fail := fun v => if v ∈ S.nodes then S.fail v else none }

def State.addWord (S : State) (u : Word) : State :=
  { State.grow S u with words := insert u S.words }

section

variable {S : State} {place : Word → Addr} {m : Mem TrieNode} {u : Word} {c : Letter}

theorem mem_grow {v : Word} : v ∈ (State.grow S u).nodes ↔ v ∈ S.nodes ∨ v <+: u := Paths.mem_addWord

theorem grow_hit (h : u ++ [c] ∈ (State.grow S u).nodes) : State.grow S (u ++ [c]) = State.grow S u := by
  have hnodes : S.nodes.addWord (u ++ [c]) = S.nodes.addWord u := by
    refine Paths.ext (fun v => ?_)
    rw [Paths.mem_addWord, Paths.mem_addWord, List.prefix_concat_iff]
    constructor
    · rintro (hv | rfl | hv)
      · exact Or.inl hv
      · exact mem_grow.mp h
      · exact Or.inr hv
    · rintro (hv | hv)
      · exact Or.inl hv
      · exact Or.inr (Or.inr hv)
  rw [State.grow, State.grow, hnodes]

theorem mem_grow_concat {v : Word} :
    v ∈ (State.grow S (u ++ [c])).nodes ↔ v = u ++ [c] ∨ v ∈ (State.grow S u).nodes := by
  rw [mem_grow, mem_grow, List.prefix_concat_iff]
  exact or_left_comm

theorem stands_grow_nil (h : Stands S place m) : Stands (State.grow S []) place m := by
  have hmem {v : Word} : v ∈ (State.grow S []).nodes ↔ v ∈ S.nodes := by
    rw [mem_grow, List.prefix_nil]
    exact ⟨fun hv => hv.elim id (fun h => h ▸ S.nodes.nil_mem), Or.inl⟩
  have hfail {v : Word} (hv : v ∈ S.nodes) : (State.grow S []).fail v = S.fail v := if_pos hv
  constructor
  case inj => exact fun v hv w hw => h.inj v (hmem.mp hv) w (hmem.mp hw)
  case nonnull => exact fun w hw => h.nonnull w (hmem.mp hw)
  case words_mem => exact fun w hw => hmem.mpr (h.words_mem w hw)
  case marks_mem => exact fun w hw => hmem.mpr (h.marks_mem w hw)
  case links_mem =>
    intro w hw v hv
    rw [hfail (hmem.mp hw)] at hv
    exact hmem.mpr (h.links_mem w (hmem.mp hw) v hv)
  case live =>
    intro w hw
    rw [h.live w (hmem.mp hw)]
    simp only [block, hfail (hmem.mp hw), hmem]
    rfl

/-- The memory between create_node and the store that links the new node. -/
structure Fresh (S : State) (place : Word → Addr) (x : Addr) (ch : UInt8) (m : Mem TrieNode) : Prop where
  stands : Stands S place m
  nonnull : x ≠ 0
  apart : ∀ w ∈ S.nodes, place w ≠ x
  lookup : m.cells.lookup x = some ⟨ch, 0, 0, 0, fun _ => 0⟩

variable {γ : Type} {Q : γ → Mem TrieNode → Prop} {E : Fault → Prop} {A : Allocator TrieNode}

theorem spec_createNode {f : Addr → TrieM γ} {ch : UInt8} (h : ∀ x, Spec (Fresh S place x ch) (f x) Q E) :
    Spec (Stands S place) (createNode A ch >>= f) Q E := by
  intro m hm
  have hlive (w : Word) (hw : w ∈ S.nodes) : place w ≠ A.malloc m nodeSize := by
    intro heq
    exact A.malloc_fresh m nodeSize (heq ▸ Finmap.mem_iff.mpr ⟨_, hm.live w hw⟩)
  refine h (A.malloc m nodeSize) ⟨m.cells.insert (A.malloc m nodeSize) ⟨ch, 0, 0, 0, fun _ => 0⟩, m.clock + 1⟩
    ⟨⟨hm.inj, hm.nonnull, hm.words_mem, hm.marks_mem, hm.links_mem, ?_⟩, A.malloc_ne_null m _, hlive,
      Finmap.lookup_insert _⟩
  intro w hw
  rw [Finmap.lookup_insert_of_ne _ (hlive w hw)]
  exact hm.live w hw

section Blocks

variable {x : Addr} (hmiss : u ++ [c] ∉ (State.grow S u).nodes) (hs : Stands (State.grow S u) place m)

include hmiss

theorem place_old {v : Word} (hv : v ∈ (State.grow S u).nodes) : Function.update place (u ++ [c]) x v = place v :=
  Function.update_of_ne (ne_of_mem_of_not_mem hv hmiss) _ _

include hs

theorem block_new : block (State.grow S (u ++ [c])) (Function.update place (u ++ [c]) x) (u ++ [c]) =
    ⟨toByte c, 0, 0, 0, fun _ => 0⟩ := by
  have hword : u ++ [c] ∉ S.words := fun h => hmiss (hs.words_mem _ h)
  have hmark : u ++ [c] ∉ S.marks := fun h => hmiss (hs.marks_mem _ h)
  have hnode : u ++ [c] ∉ S.nodes := fun h => hmiss (mem_grow.mpr (Or.inl h))
  have hnext (d : Letter) : u ++ [c] ++ [d] ∉ (State.grow S (u ++ [c])).nodes := by
    intro h
    rcases mem_grow_concat.mp h with h | h
    · simpa using congrArg List.length h
    · exact hmiss (Paths.of_concat h)
  have hfail : (State.grow S (u ++ [c])).fail (u ++ [c]) = none := if_neg hnode
  refine TrieNode.ext block_ch (if_neg hword) (if_neg hmark) ?_ (funext (fun d => if_neg (hnext d)))
  simp only [block, hfail]

theorem block_old {w : Word} (hw : w ∈ (State.grow S u).nodes) :
    block (State.grow S (u ++ [c])) (Function.update place (u ++ [c]) x) w =
      { block (State.grow S u) place w with
        next := fun d => if w ++ [d] = u ++ [c] then x else (block (State.grow S u) place w).next d } := by
  have hfail : (block (State.grow S (u ++ [c])) (Function.update place (u ++ [c]) x) w).failPtr =
      (block (State.grow S u) place w).failPtr := by
    have hl := hs.links_mem w hw
    have hlinks : (State.grow S (u ++ [c])).fail w = (State.grow S u).fail w := rfl
    simp only [block, hlinks]
    cases hf : (State.grow S u).fail w with
    | none => rfl
    | some v => exact place_old hmiss (hl v hf)
  have hnext : (block (State.grow S (u ++ [c])) (Function.update place (u ++ [c]) x) w).next =
      fun d => if w ++ [d] = u ++ [c] then x else (block (State.grow S u) place w).next d := by
    funext d
    by_cases hd : w ++ [d] = u ++ [c]
    · rw [if_pos hd, next_hit (mem_grow_concat.mpr (Or.inl hd)), hd, Function.update_self]
    · rw [if_neg hd]
      by_cases hin : w ++ [d] ∈ (State.grow S u).nodes
      · rw [next_hit hin, next_hit (mem_grow_concat.mpr (Or.inr hin)), place_old hmiss hin]
      · rw [next_miss hin, next_miss (fun h => (mem_grow_concat.mp h).elim hd hin)]
  exact TrieNode.ext rfl rfl rfl hfail hnext

end Blocks

/-- Linking the new node below u gives the memory of the grown state. -/
theorem stands_link {x : Addr} (hu : u ∈ (State.grow S u).nodes) (hmiss : u ++ [c] ∉ (State.grow S u).nodes)
    (hm : Fresh (State.grow S u) place x (toByte c) m) :
    Stands (State.grow S (u ++ [c])) (Function.update place (u ++ [c]) x)
      ⟨m.cells.insert (place u) { block (State.grow S u) place u with
        next := Function.update (block (State.grow S u) place u).next c x }, m.clock⟩ := by
  have hold {v : Word} (hv : v ∈ (State.grow S u).nodes) : Function.update place (u ++ [c]) x v = place v :=
    place_old hmiss hv
  have hnew : Function.update place (u ++ [c]) x (u ++ [c]) = x := Function.update_self _ _ _
  have hfail (v : Word) : (State.grow S (u ++ [c])).fail v = (State.grow S u).fail v := rfl
  constructor
  case inj =>
    intro v hv w hw heq
    rcases mem_grow_concat.mp hv with rfl | hv <;> rcases mem_grow_concat.mp hw with rfl | hw
    · rfl
    · rw [hnew, hold hw] at heq
      exact absurd heq.symm (hm.apart w hw)
    · rw [hnew, hold hv] at heq
      exact absurd heq (hm.apart v hv)
    · rw [hold hv, hold hw] at heq
      exact hm.stands.inj v hv w hw heq
  case nonnull =>
    intro w hw
    rcases mem_grow_concat.mp hw with rfl | hw
    · rw [hnew]
      exact hm.nonnull
    · rw [hold hw]
      exact hm.stands.nonnull w hw
  case words_mem => exact fun w hw => mem_grow_concat.mpr (Or.inr (hm.stands.words_mem w hw))
  case marks_mem => exact fun w hw => mem_grow_concat.mpr (Or.inr (hm.stands.marks_mem w hw))
  case links_mem =>
    intro w hw v hv
    rw [hfail] at hv
    rcases mem_grow_concat.mp hw with rfl | hw
    · have hnone : (State.grow S u).fail (u ++ [c]) = none := if_neg (fun h => hmiss (mem_grow.mpr (Or.inl h)))
      rw [hnone] at hv
      cases hv
    · exact mem_grow_concat.mpr (Or.inr (hm.stands.links_mem w hw v hv))
  case live =>
    intro w hw
    rcases mem_grow_concat.mp hw with rfl | hw
    · rw [hnew, block_new hmiss hm.stands, Finmap.lookup_insert_of_ne _ (hm.apart u hu).symm]
      exact hm.lookup
    · rw [hold hw, block_old hmiss hm.stands hw]
      by_cases hwu : w = u
      · subst hwu
        rw [Finmap.lookup_insert]
        refine congrArg some (TrieNode.ext rfl rfl rfl rfl (funext (fun d => ?_)))
        dsimp only
        by_cases hd : d = c
        · rw [hd, Function.update_self, if_pos rfl]
        · rw [Function.update_of_ne hd, if_neg (fun h => hd (List.append_singleton_inj.mp h).2)]
      · rw [Finmap.lookup_insert_of_ne _ (fun h => hwu (hm.stands.inj w hw u hu h)), hm.stands.live w hw]
        refine congrArg some (TrieNode.ext rfl rfl rfl rfl (funext (fun d => ?_)))
        exact (if_neg (fun h => hwu (List.append_singleton_inj.mp h).1)).symm

theorem descend_spec (place : Word → Addr) (u : Word) (c : Letter) :
    Spec (Stands (State.grow S u) place) (descend A (place u) (toByte c))
      (fun r m => ∃ place', r = place' (u ++ [c]) ∧ place' [] = place [] ∧
        Stands (State.grow S (u ++ [c])) place' m) E := by
  have hu : u ∈ (State.grow S u).nodes := mem_grow.mpr (Or.inr (List.prefix_refl u))
  rw [descend]
  apply spec_slot
  apply spec_load_at hu
  by_cases hc : u ++ [c] ∈ (State.grow S u).nodes
  · rw [next_hit hc]
    intro m hm
    rw [if_neg (hm.nonnull _ hc), grow_hit hc]
    exact ⟨place, rfl, rfl, hm⟩
  · rw [next_miss hc, if_pos rfl]
    apply spec_createNode
    intro x m hm
    have hload : load (place u) m = .ok (block (State.grow S u) place u, m) := by
      rw [load, hm.stands.live u hu]
    have hstore (b : TrieNode) : store (place u) b m = .ok ((), ⟨m.cells.insert (place u) b, m.clock⟩) := by
      rw [store, hm.stands.live u hu]
    change Ends (Except.bind (load (place u) m) _) _ E
    rw [hload]
    change Ends (Except.bind (store (place u) _ m) _) _ E
    rw [hstore]
    refine ⟨Function.update place (u ++ [c]) x, by rw [Function.update_self], ?_, stands_link hu hc hm⟩
    exact Function.update_of_ne (by simp) _ _

/-- The loop of insert_tree ends at the node of the word. -/
theorem descends_spec (place : Word → Addr) (u : Word) :
    Spec (Stands S place) ((toBytes u).foldlM (descend A) (place []))
      (fun r m => ∃ place', r = place' u ∧ place' [] = place [] ∧ Stands (State.grow S u) place' m) E := by
  rw [toBytes, List.foldlM_map]
  refine Spec.mono (spec_foldlM (I := fun pre r m => ∃ place', r = place' pre ∧ place' [] = place [] ∧
    Stands (State.grow S pre) place' m) u ?_) (fun m hm => ⟨place, rfl, rfl, stands_grow_nil hm⟩)
    (fun _ _ h => h) (fun _ h => h)
  rintro pre c - r m ⟨place', rfl, hroot, hm⟩
  refine Spec.post (descend_spec place' pre c) ?_ m hm
  rintro r m ⟨place'', rfl, hroot', hm⟩
  exact ⟨place'', rfl, hroot'.trans hroot, hm⟩

/-- A word is entered below the root, which stays where it is. -/
theorem insertTree_spec (place : Word → Addr) (u : Word) :
    Spec (Stands S place) (insertTree A (place []) (toBytes u))
      (fun r m => r = true ∧ ∃ place', place' [] = place [] ∧ Stands (State.addWord S u) place' m) E := by
  rw [insertTree]
  refine spec_bind (descends_spec place u) (fun r => ?_)
  rintro m ⟨place', rfl, hroot, hm⟩
  have hu : u ∈ (State.grow S u).nodes := mem_grow.mpr (Or.inr (List.prefix_refl u))
  refine (?_ : Spec (Stands (State.grow S u) place') _ _ E) m hm
  apply spec_load_at hu
  refine spec_store_at (R := State.addWord S u) hu ?_ rfl ?_ ?_ hm.marks_mem hm.links_mem ?_
  · exact TrieNode.ext rfl (if_pos (Finset.mem_insert_self u S.words)).symm rfl rfl rfl
  · intro v _ hv
    have hword : v ∈ insert u S.words ↔ v ∈ S.words := by simp [hv]
    refine TrieNode.ext rfl ?_ rfl rfl rfl
    exact if_congr hword rfl rfl
  · intro v hv
    rcases Finset.mem_insert.mp hv with rfl | hv
    · exact hu
    · exact hm.words_mem v hv
  · exact spec_pure (fun m hm => ⟨rfl, place', hroot, hm⟩)

theorem newTrie_spec {P : Mem TrieNode → Prop} :
    Spec P (createNode A 114) (fun r m => ∃ place, r = place [] ∧ Stands State.init place m) E := by
  intro m _
  refine ⟨fun _ => A.malloc m nodeSize, rfl, ?_⟩
  have hroot {w : Word} (hw : w ∈ State.init.nodes) : w = [] := Paths.mem_root.mp hw
  constructor
  case inj => exact fun v hv w hw _ => (hroot hv).trans (hroot hw).symm
  case nonnull => exact fun w _ => A.malloc_ne_null m _
  case words_mem => exact fun w hw => absurd hw (Finset.notMem_empty w)
  case marks_mem => exact fun w hw => absurd hw (Finset.notMem_empty w)
  case links_mem => exact fun w _ v hv => by cases hv
  case live =>
    intro w hw
    rw [hroot hw, Finmap.lookup_insert]
    refine congrArg some (TrieNode.ext rfl rfl rfl rfl (funext (fun d => ?_)))
    exact (next_miss (fun h => by simpa using hroot h)).symm

end

end StudyNotes.Automaton.Insertion
