import StudyNotes.Automaton.Insertion
import StudyNotes.Words.BreadthFirst

namespace StudyNotes.Automaton.FailLinks

open Heap.Program Heap.Triple Words.Suffixes Words.BreadthFirst Program Memory Insertion

/-- Where the failure pointer of a node should lead. -/
def goal (N : Paths Letter) (v : Word) : Option Word := if v = [] then none else some (fallback N v)

/-- The state in which the nodes of L have their final failure pointers. -/
def State.linked (S : State) (L : List Word) : State :=
  { S with fail := fun v => if v ∈ L then goal S.nodes v else S.fail v }

def State.built (S : State) : State := { S with fail := goal S.nodes }

section

variable {S : State} {place : Word → Addr} {m : Mem TrieNode} {L : List Word} {v w : Word} {c : Letter}
variable {γ : Type} {Q : γ → Mem TrieNode → Prop} {E : Fault → Prop}

theorem linked_root (h : [] ∈ L) : (block (State.linked S L) place []).failPtr = 0 := by
  simp only [block, State.linked, if_pos h, goal, if_true]

theorem linked_node (h : w ∈ L) (hw : w ≠ []) :
    (block (State.linked S L) place w).failPtr = place (fallback S.nodes w) := by
  simp only [block, State.linked, if_pos h, goal, if_neg hw]

theorem linked_nil : State.linked S [] = S := by
  simp only [State.linked, List.not_mem_nil, if_false]

theorem goal_mem {N : Paths Letter} {u : Word} (h : goal N v = some u) : u ∈ N := by
  rw [goal] at h
  split at h
  · cases h
  · cases h
    exact fallback_mem N v

/-- Storing the failure pointer of one more node. -/
theorem spec_link {f : Unit → TrieM γ} {b : TrieNode} (hv : v ∈ S.nodes)
    (hb : b = block (State.linked S (L ++ [v])) place v)
    (h : Spec (Stands (State.linked S (L ++ [v])) place) (f ()) Q E) :
    Spec (Stands (State.linked S L) place) (store (place v) b >>= f) Q E := by
  intro m hm
  refine spec_store_at (S := State.linked S L) (R := State.linked S (L ++ [v])) hv hb rfl (fun u _ hu => ?_)
    hm.words_mem hm.marks_mem (fun u hu x hx => ?_) h m hm
  · have hiff : u ∈ L ++ [v] ↔ u ∈ L := by simp [hu]
    have hfail : (State.linked S (L ++ [v])).fail u = (State.linked S L).fail u := if_congr hiff rfl rfl
    exact TrieNode.ext rfl rfl rfl (by simp only [block, hfail]) rfl
  · simp only [State.linked] at hx
    by_cases huL : u ∈ L ++ [v]
    · rw [if_pos huL] at hx
      exact goal_mem hx
    · have huL' : u ∉ L := fun hu => huL (List.mem_append_left _ hu)
      rw [if_neg huL] at hx
      refine hm.links_mem u hu x ?_
      simp only [State.linked, if_neg huL']
      exact hx

/-- The loop of do_find_fail_ptr looks for the longest suffix below which there is
a child c. The induction is on the fuel; every iteration moves to a shorter word. -/
theorem failLoop_spec (fuel : Nat) (u : Word) (hreach : ∀ v ∈ S.nodes, v.length ≤ (longest S.nodes u).length → v ∈ L)
    (hfuel : (longest S.nodes u).length + 2 ≤ fuel) :
    Spec (Stands (State.linked S L) place) (failLoop (toByte c) (place []) fuel (place (longest S.nodes u)))
      (fun r m => r = place (longest S.nodes (u ++ [c])) ∧ Stands (State.linked S L) place m) E := by
  induction fuel generalizing u with
  | zero => omega
  | succ fuel ih =>
      have hmem : longest S.nodes u ∈ (State.linked S L).nodes := longest_mem S.nodes u
      intro m hm
      rw [failLoop, if_neg (hm.nonnull _ hmem)]
      refine (?_ : Spec (Stands (State.linked S L) place) _ _ E) m hm
      apply spec_slot
      apply spec_load_at hmem
      by_cases hc : longest S.nodes u ++ [c] ∈ S.nodes
      · intro m hm
        rw [next_hit (S := State.linked S L) hc, if_pos (hm.nonnull _ hc), longest_concat_hit hc]
        exact ⟨rfl, hm⟩
      · rw [next_miss (S := State.linked S L) hc, if_neg (fun h => h rfl)]
        by_cases hnil : longest S.nodes u = []
        · have hroot : [] ∈ L := hreach [] S.nodes.nil_mem (Nat.zero_le _)
          rw [hnil] at hc
          rw [hnil, linked_root hroot, longest_concat_nil hnil hc]
          obtain ⟨fuel, rfl⟩ := Nat.exists_eq_succ_of_ne_zero (by omega : fuel ≠ 0)
          rw [failLoop, if_pos rfl]
          exact spec_pure (fun m hm => ⟨rfl, hm⟩)
        · have hshort : (fallback S.nodes (longest S.nodes u)).length < (longest S.nodes u).length :=
            fallback_length hnil
          rw [linked_node (hreach _ hmem (Nat.le_refl _)) hnil]
          rw [(longest_concat_miss hc).resolve_right hnil]
          rw [fallback] at hshort ⊢
          exact ih _ (fun v hv hlen => hreach v hv (by omega)) (by omega)

theorem fallback_concat (hw : w ≠ []) : fallback S.nodes (w ++ [c]) = longest S.nodes (w.tail ++ [c]) := by
  rw [fallback, List.tail_append_of_ne_nil hw]

/-- The result of do_find_fail_ptr for a child of w. -/
theorem doFindFailPtr_spec (hw : w ∈ S.nodes) (hreach : ∀ v ∈ S.nodes, v.length ≤ w.length → v ∈ L) :
    Spec (Stands (State.linked S L) place) (doFindFailPtr (place w) (toByte c) (place []))
      (fun r m => r = place (fallback S.nodes (w ++ [c])) ∧ Stands (State.linked S L) place m) E := by
  have hlen : w.length < S.nodes.carrier.card := length_lt_card hw
  rw [doFindFailPtr]
  apply spec_load_at (S := State.linked S L) hw
  apply spec_liveBlocks
  intro bound hbound
  by_cases hnil : w = []
  · subst hnil
    rw [linked_root (hreach [] hw (Nat.le_refl _)), failLoop, if_pos rfl]
    exact spec_pure (fun m hm => ⟨rfl, hm⟩)
  · have hshort := fallback_length (N := S.nodes) hnil
    rw [linked_node (hreach w hw (Nat.le_refl _)) hnil, fallback_concat hnil]
    rw [fallback] at hshort ⊢
    have hcard : S.nodes.carrier.card ≤ bound := hbound
    exact failLoop_spec (bound + 1) w.tail (fun v hv hle => hreach v hv (by omega)) (by omega)

theorem visitChild_hit (q : List Addr) (hc : w ++ [c] ∈ S.nodes)
    (hreach : ∀ v ∈ S.nodes, v.length ≤ w.length → v ∈ L) :
    Spec (Stands (State.linked S L) place) (visitChild (place []) (place w) q c)
      (fun r m => r = q ++ [place (w ++ [c])] ∧ Stands (State.linked S (L ++ [w ++ [c]])) place m) E := by
  have hw : w ∈ S.nodes := Paths.of_concat hc
  rw [visitChild]
  apply spec_load_at (S := State.linked S L) hw
  rw [next_hit (S := State.linked S L) hc]
  intro m hm
  rw [if_pos (hm.nonnull _ hc)]
  refine (?_ : Spec (Stands (State.linked S L) place) _ _ E) m hm
  apply spec_load_at (S := State.linked S L) hc
  rw [block_ch]
  refine spec_bind (doFindFailPtr_spec hw hreach) (fun r => ?_)
  rintro m ⟨rfl, hm⟩
  refine (?_ : Spec (Stands (State.linked S L) place) _ _ E) m hm
  apply spec_load_at (S := State.linked S L) hc
  refine spec_link hc (TrieNode.ext rfl rfl rfl ?_ rfl) (spec_pure (fun m hm => ⟨rfl, hm⟩))
  exact (linked_node (by simp) (by simp)).symm

theorem visitChild_miss (q : List Addr) (hw : w ∈ S.nodes) (hc : w ++ [c] ∉ S.nodes) :
    Spec (Stands (State.linked S L) place) (visitChild (place []) (place w) q c)
      (fun r m => r = q ∧ Stands (State.linked S L) place m) E := by
  rw [visitChild]
  apply spec_load_at (S := State.linked S L) hw
  rw [next_miss (S := State.linked S L) hc, if_neg (fun h => h rfl)]
  exact spec_pure (fun m hm => ⟨rfl, hm⟩)

/-- The for loop of build_fail_ptr links and enqueues the children of one node. -/
theorem forLoop_spec (q : List Addr) (hw : w ∈ S.nodes) (hreach : ∀ v ∈ S.nodes, v.length ≤ w.length → v ∈ L)
    (cs : List Letter) :
    Spec (Stands (State.linked S L) place) (cs.foldlM (visitChild (place []) (place w)) q)
      (fun r m => r = q ++ (children S.nodes cs w).map place ∧
        Stands (State.linked S (L ++ children S.nodes cs w)) place m) E := by
  refine Spec.mono (spec_foldlM (I := fun pre r m => r = q ++ (children S.nodes pre w).map place ∧
    Stands (State.linked S (L ++ children S.nodes pre w)) place m) cs ?_) (fun m hm => ?_) (fun _ _ h => h)
    (fun _ h => h)
  · rintro pre c - r m ⟨rfl, hm⟩
    by_cases hc : w ++ [c] ∈ S.nodes
    · refine Spec.post (visitChild_hit _ hc (fun v hv hlen => List.mem_append_left _ (hreach v hv hlen))) ?_ m hm
      rintro r m ⟨rfl, hm⟩
      rw [children_hit pre hc, List.map_append, ← List.append_assoc, ← List.append_assoc]
      exact ⟨rfl, hm⟩
    · rw [children_miss pre hc]
      exact visitChild_miss _ hw hc m hm
  · rw [children_nil, List.map_nil, List.append_nil, List.append_nil]
    exact ⟨rfl, hm⟩

/-- The traversal ends with every failure pointer in place. The fuel suffices since
each node is dequeued once. -/
theorem bfsLoop_spec (fuel : Nat) (D q : List Word) (hq : Queue S.nodes D q)
    (hfuel : S.nodes.carrier.card ≤ fuel + D.length) :
    Spec (Stands (State.linked S (D ++ q)) place) (bfsLoop (place []) fuel (q.map place))
      (fun _ m => ∃ D', Queue S.nodes D' [] ∧ Stands (State.linked S D') place m) E := by
  induction fuel generalizing D q with
  | zero =>
      cases q with
      | nil =>
          rw [List.map_nil, bfsLoop, List.append_nil]
          exact spec_pure (fun m hm => ⟨D, hq, hm⟩)
      | cons w q =>
          have hlen := hq.length_le
          rw [List.length_cons] at hlen
          omega
  | succ fuel ih =>
      cases q with
      | nil =>
          rw [List.map_nil, bfsLoop, List.append_nil]
          exact spec_pure (fun m hm => ⟨D, hq, hm⟩)
      | cons w q =>
          have hw : w ∈ S.nodes := hq.mem w (by simp)
          rw [List.map_cons, bfsLoop]
          refine spec_bind (forLoop_spec (q.map place) hw (fun v hv hlen => hq.reached hv hlen) _) (fun r => ?_)
          rintro m ⟨rfl, hm⟩
          have hstep := hq.step (List.nodup_finRange 127) (List.mem_finRange)
          have hlist : D ++ w :: q ++ children S.nodes (List.finRange 127) w =
              (D ++ [w]) ++ (q ++ children S.nodes (List.finRange 127) w) := by simp
          rw [hlist] at hm
          rw [← List.map_append]
          refine ih (D ++ [w]) _ hstep ?_ m hm
          rw [List.length_append, List.length_singleton]
          omega

theorem stands_built {D : List Word} (hq : Queue S.nodes D []) (h : Stands (State.linked S D) place m) :
    Stands (State.built S) place m := by
  have hfail {v : Word} (hv : v ∈ S.nodes) : (State.built S).fail v = (State.linked S D).fail v :=
    (if_pos (hq.all hv)).symm
  refine ⟨h.inj, h.nonnull, h.words_mem, h.marks_mem, fun v hv u hu => ?_, fun v hv => ?_⟩
  · rw [hfail hv] at hu
    exact h.links_mem v hv u hu
  · rw [h.live v hv]
    exact congrArg some (TrieNode.ext rfl rfl rfl (by simp only [block, hfail hv]) rfl)

/-- Whatever failure pointers are left from before, build_fail_ptr puts them all right. -/
theorem buildFailPtr_spec :
    Spec (Stands S place) (buildFailPtr (place [])) (fun r m => r = true ∧ Stands (State.built S) place m) E := by
  have hroot : [] ∈ S.nodes := S.nodes.nil_mem
  rw [buildFailPtr]
  apply spec_load_at hroot
  have hlink : Spec (Stands (State.linked S []) place)
      (store (place []) { block S place [] with failPtr := 0 } >>= fun _ => liveBlocks >>= fun bound =>
        bfsLoop (place []) bound [place []] >>= fun _ => pure true)
      (fun r m => r = true ∧ Stands (State.built S) place m) E := by
    refine spec_link (L := []) hroot (TrieNode.ext rfl rfl rfl (linked_root (by simp)).symm rfl) ?_
    apply spec_liveBlocks
    intro bound hbound
    refine spec_bind (bfsLoop_spec bound [] [[]] queue_root hbound) (fun _ => ?_)
    rintro m ⟨D, hq, hm⟩
    exact ⟨rfl, stands_built hq hm⟩
  rw [linked_nil] at hlink
  exact hlink

end

end StudyNotes.Automaton.FailLinks
