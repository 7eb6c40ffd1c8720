import StudyNotes.Automaton.FailLinks
import StudyNotes.Words.GreedyCut

namespace StudyNotes.Automaton.Search

open Heap.Program Heap.Triple Words.Suffixes Words.BreadthFirst Words.GreedyCut Program Memory FailLinks

/-- The state after the given nodes have been checked: those that are words are marked. -/
def State.mark (S : State) (L : List Word) : State :=
  { S with marks := S.marks ∪ S.words ∩ L.toFinset }

section

variable {S : State} {place : Word → Addr} {m : Mem TrieNode} {L : List Word} {v w : Word} {count : Nat}

theorem mem_mark : v ∈ (State.mark S L).marks ↔ v ∈ S.marks ∨ v ∈ S.words ∧ v ∈ L := by
  rw [State.mark, Finset.mem_union, Finset.mem_inter, List.mem_toFinset]

theorem mark_nil : State.mark S [] = S := by
  rw [State.mark, List.toFinset_nil, Finset.inter_empty, Finset.union_empty]

theorem mark_subset {L' : List Word} (h : L ⊆ L') : (State.mark S L).marks ⊆ (State.mark S L').marks := by
  intro v hv
  rcases mem_mark.mp hv with hv | ⟨hv, hL⟩
  · exact mem_mark.mpr (Or.inl hv)
  · exact mem_mark.mpr (Or.inr ⟨hv, h hL⟩)

theorem mark_hit (hw : v ∈ S.words) : (State.mark S (L ++ [v])).marks = insert v (State.mark S L).marks := by
  ext u
  simp only [mem_mark, Finset.mem_insert, List.mem_append, List.mem_singleton]
  constructor
  · rintro (hu | ⟨hu, hL | rfl⟩)
    · exact Or.inr (Or.inl hu)
    · exact Or.inr (Or.inr ⟨hu, hL⟩)
    · exact Or.inl rfl
  · rintro (rfl | hu | ⟨hu, hL⟩)
    · exact Or.inr ⟨hw, Or.inr rfl⟩
    · exact Or.inl hu
    · exact Or.inr ⟨hu, Or.inl hL⟩

theorem mark_same (h : v ∈ S.words → v ∈ (State.mark S L).marks) : State.mark S (L ++ [v]) = State.mark S L := by
  have hmarks : (State.mark S (L ++ [v])).marks = (State.mark S L).marks := by
    by_cases hw : v ∈ S.words
    · rw [mark_hit hw, Finset.insert_eq_of_mem (h hw)]
    · ext u
      simp only [mem_mark, List.mem_append, List.mem_singleton]
      refine or_congr_right (and_congr_right (fun hu => or_iff_left ?_))
      rintro rfl
      exact hw hu
  exact congrArg (fun M => { S with marks := M }) hmarks

theorem check_new (hw : v ∈ S.words) (hn : v ∉ (State.mark S L).marks) :
    (State.mark S (L ++ [v])).marks.card = 1 + (State.mark S L).marks.card := by
  rw [mark_hit hw, Finset.card_insert_of_notMem hn, Nat.add_comm]

/-- A node counts when it is a word that has not been marked before. -/
theorem doCheckAndReturnCnt_spec {E : Fault → Prop} (hv : v ∈ S.nodes) :
    Spec (Stands (State.mark S L) place) (doCheckAndReturnCnt (place v))
      (fun n m => n + (State.mark S L).marks.card = (State.mark S (L ++ [v])).marks.card ∧
        Stands (State.mark S (L ++ [v])) place m) E := by
  intro m hm
  refine (?_ : Spec (Stands (State.mark S L) place) _ _ E) m hm
  rw [doCheckAndReturnCnt]
  refine spec_load_at (S := State.mark S L) hv ?_
  by_cases hw : v ∈ S.words
  · have hword : (block (State.mark S L) place v).isWord = 1 := if_pos hw
    by_cases hn : v ∈ (State.mark S L).marks
    · have hmark : (block (State.mark S L) place v).isMarked = 1 := if_pos hn
      rw [if_neg (by rw [hmark]; exact fun h => Nat.one_ne_zero h.2), mark_same (fun _ => hn)]
      exact spec_pure (fun m hm => ⟨Nat.zero_add _, hm⟩)
    · have hmark : (block (State.mark S L) place v).isMarked = 0 := if_neg hn
      rw [if_pos ⟨by rw [hword]; exact Nat.one_ne_zero, hmark⟩]
      refine spec_store_at (S := State.mark S L) (R := State.mark S (L ++ [v])) hv ?_ rfl ?_ hm.words_mem ?_
        hm.links_mem ?_
      · refine TrieNode.ext rfl rfl ?_ rfl rfl
        exact (if_pos (by rw [mark_hit hw]; exact Finset.mem_insert_self _ _)).symm
      · intro u _ hu
        refine TrieNode.ext rfl rfl ?_ rfl rfl
        exact if_congr (by rw [mark_hit hw, Finset.mem_insert, or_iff_right hu]) rfl rfl
      · rw [mark_hit hw]
        intro u hu
        rcases Finset.mem_insert.mp hu with rfl | hu
        · exact hv
        · exact hm.marks_mem u hu
      · refine spec_pure (fun m hm => ⟨?_, hm⟩)
        rw [hword, check_new hw hn]
  · have hword : (block (State.mark S L) place v).isWord = 0 := if_neg hw
    rw [if_neg (fun h => h.1 hword), mark_same (fun h => absurd h hw)]
    exact spec_pure (fun m hm => ⟨Nat.zero_add _, hm⟩)

/-- The count of the words that this search has marked, next to the memory. -/
structure Tally (S : State) (place : Word → Addr) (L : List Word) (count : Nat) (m : Mem TrieNode) : Prop where
  stands : Stands (State.mark S L) place m
  count_eq : count + S.marks.card = (State.mark S L).marks.card
  small : count < 2 ^ 31

/-- The only fault of a search that meets the nodes of total. -/
def TooMany (S : State) (total : List Word) (e : Fault) : Prop :=
  e = .overflow ∧ 2 ^ 31 + S.marks.card ≤ (State.mark S total).marks.card

variable {γ : Type} {Q : γ → Mem TrieNode → Prop} {total : List Word}

theorem spec_load_tally {f : TrieNode → TrieM γ} {E : Fault → Prop} (hw : w ∈ S.nodes)
    (h : Spec (Tally S place L count) (f (block (State.mark S L) place w)) Q E) :
    Spec (Tally S place L count) (load (place w) >>= f) Q E := by
  intro m hm
  have hload : load (place w) m = .ok (block (State.mark S L) place w, m) := by rw [load, hm.stands.live w hw]
  change Ends (Except.bind (load (place w) m) _) Q E
  rw [hload]
  exact h m hm

theorem spec_liveBlocks_tally {f : Nat → TrieM γ} {E : Fault → Prop}
    (h : ∀ n, S.nodes.carrier.card ≤ n → Spec (Tally S place L count) (f n) Q E) :
    Spec (Tally S place L count) (liveBlocks >>= f) Q E :=
  fun m hm => h _ hm.stands.card_le m hm

theorem spec_check {f : Nat → TrieM γ} (hv : v ∈ S.nodes) (htotal : L ++ [v] ⊆ total)
    (h : ∀ n, Spec (Tally S place (L ++ [v]) n) (f n) Q (TooMany S total)) :
    Spec (Tally S place L count) (doCheckAndReturnCnt (place v) >>= fun n => addCount count n >>= f) Q
      (TooMany S total) := by
  rintro m ⟨hm, hcount, -⟩
  refine spec_bind (doCheckAndReturnCnt_spec hv) (fun n => ?_) m hm
  rintro m ⟨hn, hm⟩
  rw [addCount]
  by_cases hlt : count + n < 2 ^ 31
  · rw [if_pos hlt, pure_bind]
    exact h _ m ⟨hm, by omega, hlt⟩
  · rw [if_neg hlt]
    have hmono := Finset.card_le_card (mark_subset (S := S) htotal)
    exact ⟨rfl, by omega⟩

section Scan

variable (hfail : ∀ u ∈ S.nodes, S.fail u = goal S.nodes u)

include hfail

theorem failPtr_eq (hw : w ∈ S.nodes) (hne : w ≠ []) :
    (block (State.mark S L) place w).failPtr = place (fallback S.nodes w) := by
  have hlink : (State.mark S L).fail w = some (fallback S.nodes w) := (hfail w hw).trans (if_neg hne)
  simp only [block, hlink]

/-- After a mismatch all proper suffixes that are paths are checked. -/
theorem unwind_spec (fuel : Nat) (w : Word) (L : List Word) (count : Nat) (hw : w ∈ S.nodes)
    (hfuel : w.length < fuel) (htotal : L ++ chain S.nodes w ⊆ total) :
    Spec (Tally S place L count) (unwind (place []) fuel (place w) count)
      (fun r m => r.1 = place [] ∧ Tally S place (L ++ chain S.nodes w) r.2 m) (TooMany S total) := by
  induction fuel generalizing w L count with
  | zero => omega
  | succ fuel ih =>
      rw [unwind]
      by_cases hnil : w = []
      · subst hnil
        rw [if_neg (fun h => h rfl), chain_nil, List.append_nil]
        exact spec_pure (fun m hm => ⟨rfl, hm⟩)
      · intro m hm
        have hne : place w ≠ place [] := fun heq => hnil (hm.stands.inj w hw [] S.nodes.nil_mem heq)
        have hback : fallback S.nodes w ∈ S.nodes := fallback_mem S.nodes w
        have hchain : L ++ chain S.nodes w = L ++ [fallback S.nodes w] ++ chain S.nodes (fallback S.nodes w) := by
          rw [chain_eq S.nodes hnil, List.append_assoc, List.singleton_append]
        rw [hchain] at htotal ⊢
        have hlen := fallback_length (N := S.nodes) hnil
        rw [if_pos hne]
        refine spec_load_tally hw ?_ m hm
        rw [failPtr_eq hfail hw hnil]
        refine spec_check hback (fun u hu => htotal (List.mem_append_left _ hu)) (fun n => ?_)
        exact ih _ _ n hback (by omega) htotal

/-- The loop of search from a node on. -/
theorem scan_spec (text w : Word) (L : List Word) (count : Nat) (hw : w ∈ S.nodes)
    (htotal : L ++ visits S.nodes w text ⊆ total) :
    Spec (Tally S place L count) ((toBytes text).foldlM (scanByte (place [])) (place w, count))
      (fun r m => Tally S place (L ++ visits S.nodes w text) r.2 m) (TooMany S total) := by
  induction text generalizing w L count with
  | nil =>
      rw [visits, List.append_nil]
      exact spec_pure (fun m hm => hm)
  | cons c text ih =>
      rw [toBytes, List.map_cons, List.foldlM_cons, scanByte, bind_assoc]
      apply spec_slot
      rw [bind_assoc]
      refine spec_load_tally hw ?_
      by_cases hc : w ++ [c] ∈ S.nodes
      · have hvisits : L ++ visits S.nodes w (c :: text) = L ++ [w ++ [c]] ++ visits S.nodes (w ++ [c]) text := by
          rw [visits_hit hc, List.append_assoc, List.singleton_append]
        rw [hvisits] at htotal ⊢
        intro m hm
        rw [next_hit (S := State.mark S L) hc, if_pos (hm.stands.nonnull _ hc), bind_assoc]
        simp only [bind_assoc, pure_bind]
        refine spec_check hc (fun u hu => htotal (List.mem_append_left _ hu)) (fun n => ?_) m hm
        exact ih _ _ n hc htotal
      · have hvisits : L ++ visits S.nodes w (c :: text) = L ++ chain S.nodes w ++ visits S.nodes [] text := by
          rw [visits_miss hc, List.append_assoc]
        rw [hvisits] at htotal ⊢
        rw [next_miss (S := State.mark S L) hc, if_neg (fun h => h rfl), bind_assoc]
        refine spec_liveBlocks_tally (fun bound hbound => ?_)
        have hlen := length_lt_card hw
        refine spec_bind (unwind_spec hfail _ w L count hw (by omega) ?_) (fun r => ?_)
        · exact fun u hu => htotal (List.mem_append_left _ hu)
        · rintro m ⟨hr, hm⟩
          obtain ⟨a, n⟩ := r
          cases hr
          exact ih [] _ n S.nodes.nil_mem htotal m hm

/-- A search checks the nodes that the scan meets, and stops early only when
more new words are among them than the count can hold. -/
theorem search_spec (text : Word) :
    Spec (Stands S place) (search (place []) (toBytes text))
      (fun n m => Tally S place (visits S.nodes [] text) n m) (TooMany S (visits S.nodes [] text)) := by
  intro m hm
  rw [search]
  refine spec_bind (scan_spec hfail text [] [] 0 S.nodes.nil_mem (fun u hu => hu)) (fun r => ?_) m ?_
  · exact spec_pure (fun m hm => hm)
  · exact ⟨by rwa [mark_nil], by rw [mark_nil, Nat.zero_add], by decide⟩

end Scan

end

end StudyNotes.Automaton.Search
