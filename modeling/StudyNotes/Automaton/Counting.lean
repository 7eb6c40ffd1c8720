import StudyNotes.Automaton.Runs
import StudyNotes.Automaton.Search
import Mathlib.Data.Set.Card

namespace StudyNotes.Automaton.Counting

open Heap.Program Heap.Triple Words.Suffixes Words.GreedyCut Program Memory FailLinks Runs Search

/-- The words that lead from the root to a node with the given property. -/
def nodesWith (p : TrieNode → Prop) (root : Addr) (m : Mem TrieNode) : Set Word :=
  {w | ∃ a node, walk m root w = some a ∧ m.cells.lookup a = some node ∧ p node}

def marked (root : Addr) (m : Mem TrieNode) : Set Word := nodesWith (fun node => node.isMarked ≠ 0) root m

def markedWords (root : Addr) (m : Mem TrieNode) : Set Word :=
  nodesWith (fun node => node.isWord ≠ 0 ∧ node.isMarked ≠ 0) root m

/-- The distinct words that occur in a text. -/
def wordsIn (words : List Word) (text : Word) : Finset Word := words.toFinset.filter (· <:+: text)

/-- The words that begin or end a piece of the text, as far as the scan looks at them. -/
def shown (words : List Word) (text : Word) : Finset Word :=
  words.toFinset.filter (Shows (cut (Paths.ofWords words) [] text))

/-- Texts searched one after another, with the counts returned. -/
def searchAll (root : Addr) (texts : List Word) : TrieM (List Nat) :=
  texts.foldlM (fun counts text => do
    let n ← search root (toBytes text)
    return counts ++ [n]) []

/-- The nodes met while the texts are searched. -/
def met (N : Paths Letter) (texts : List Word) : List Word := texts.flatMap (visits N [])

theorem met_concat (N : Paths Letter) (texts : List Word) (t : Word) :
    met N (texts ++ [t]) = met N texts ++ visits N [] t := by
  rw [met, List.flatMap_append, List.flatMap_singleton, met]

section

variable {S : State} {place : Word → Addr} {m : Mem TrieNode}

theorem mem_nodesWith {p : TrieNode → Prop} {w : Word} (h : Stands S place m) :
    w ∈ nodesWith p (place []) m ↔ w ∈ S.nodes ∧ p (block S place w) := by
  constructor
  · rintro ⟨a, node, ha, hnode, hp⟩
    rw [walk_root h] at ha
    split at ha
    · next hw =>
        cases ha
        rw [h.live w hw] at hnode
        cases hnode
        exact ⟨hw, hp⟩
    · cases ha
  · rintro ⟨hw, hp⟩
    exact ⟨place w, _, by rw [walk_root h, if_pos hw], h.live w hw, hp⟩

theorem isMarked_iff {w : Word} : (block S place w).isMarked ≠ 0 ↔ w ∈ S.marks := by simp [block]

theorem isWord_iff {w : Word} : (block S place w).isWord ≠ 0 ↔ w ∈ S.words := by simp [block]

theorem marked_eq (h : Stands S place m) : marked (place []) m = S.marks := by
  ext w
  rw [marked, mem_nodesWith h, isMarked_iff]
  exact and_iff_right_of_imp (h.marks_mem w)

theorem markedWords_eq (h : Stands S place m) (hsub : S.marks ⊆ S.words) : markedWords (place []) m = S.marks := by
  ext w
  rw [markedWords, mem_nodesWith h, isMarked_iff, isWord_iff]
  refine ⟨fun hw => hw.2.2, fun hw => ⟨h.marks_mem w hw, hsub hw, hw⟩⟩

theorem mark_append (L L' : List Word) : State.mark (State.mark S L) L' = State.mark S (L ++ L') := by
  rw [State.mark, State.mark, State.mark, List.toFinset_append, Finset.inter_union_distrib_left, Finset.union_assoc]

theorem mark_card_le (L : List Word) :
    (State.mark S L).marks.card ≤ (S.words ∩ L.toFinset).card + S.marks.card := by
  rw [Nat.add_comm]
  exact Finset.card_union_le _ _

/-- A search among few enough words returns. -/
theorem search_ok {t : Word} (hm : Stands S place m) (hfail : ∀ u ∈ S.nodes, S.fail u = goal S.nodes u)
    (hfew : (S.words ∩ (visits S.nodes [] t).toFinset).card < 2 ^ 31) :
    ∃ n m', search (place []) (toBytes t) m = .ok (n, m') ∧ Tally S place (visits S.nodes [] t) n m' := by
  refine ((search_spec hfail t m hm).mono (fun _ _ h => h) (fun e he => ?_)).exists_ok
  have hcard := mark_card_le (S := S) (visits S.nodes [] t)
  have hover := he.2
  omega

end

section Loaded

variable {words texts : List Word} {t : Word}

theorem mem_mark_loaded {L : List Word} {v : Word} : v ∈ (State.mark (loaded words) L).marks ↔ v ∈ words ∧ v ∈ L := by
  rw [mem_mark, loaded, List.mem_toFinset]
  exact or_iff_right (Finset.notMem_empty v)

theorem marks_words (L : List Word) : (State.mark (loaded words) L).marks ⊆ (loaded words).words :=
  fun _ hv => List.mem_toFinset.mpr (mem_mark_loaded.mp hv).1

theorem mem_shown {v : Word} :
    v ∈ shown words t ↔ v ∈ words ∧ Shows (cut (Paths.ofWords words) [] t) v := by
  rw [shown, Finset.mem_filter, List.mem_toFinset]

theorem visited_eq : words.toFinset ∩ (visits (Paths.ofWords words) [] t).toFinset = shown words t := by
  ext v
  rw [Finset.mem_inter, List.mem_toFinset, List.mem_toFinset, mem_shown]
  refine and_congr_right (fun hv => mem_visits ?_)
  exact Paths.mem_ofWords.mpr (Or.inr ⟨v, hv, List.prefix_refl v⟩)

theorem mark_visits : (State.mark (loaded words) (visits (Paths.ofWords words) [] t)).marks = shown words t :=
  (Finset.empty_union _).trans visited_eq

theorem shown_few (hfew : (wordsIn words t).card < 2 ^ 31) : (shown words t).card < 2 ^ 31 := by
  refine (Finset.card_le_card (fun v hv => ?_)).trans_lt hfew
  rw [← visited_eq, Finset.mem_inter, List.mem_toFinset, List.mem_toFinset] at hv
  exact Finset.mem_filter.mpr ⟨List.mem_toFinset.mpr hv.1, visits_infix hv.2⟩

variable {place : Word → Addr} {m : Mem TrieNode}

/-- The first search of a text marks the words shown, if they can be counted. -/
theorem search_first (hm : Stands (loaded words) place m) (hfit : (shown words t).card < 2 ^ 31) :
    ∃ m', search (place []) (toBytes t) m = .ok ((shown words t).card, m') ∧ marked (place []) m' = shown words t := by
  rw [← visited_eq] at hfit
  obtain ⟨n, m', hrun, hm', hcount, -⟩ := search_ok (t := t) hm (fun _ _ => rfl) hfit
  have hn : n = (shown words t).card := hcount.trans (congrArg Finset.card mark_visits)
  refine ⟨m', hn ▸ hrun, ?_⟩
  rw [marked_eq hm']
  exact congrArg _ mark_visits

theorem search_first_overflow (hm : Stands (loaded words) place m) (hbig : 2 ^ 31 ≤ (shown words t).card) :
    search (place []) (toBytes t) m = .error .overflow := by
  have hspec := search_spec (fun _ _ => rfl) t m hm
  cases hs : search (place []) (toBytes t) m with
  | error e =>
      rw [hs] at hspec
      exact congrArg Except.error hspec.1
  | ok r =>
      rw [hs] at hspec
      obtain ⟨-, hcount, hsmall⟩ : Tally (loaded words) place (visits (Paths.ofWords words) [] t) r.1 r.2 := hspec
      have hzero : (loaded words).marks.card = 0 := rfl
      rw [mark_visits] at hcount
      omega

/-- What a sequence of searches has done to the memory, with the sum of its counts. -/
structure Searched (words : List Word) (place : Word → Addr) (texts : List Word) (counts : List Nat)
    (m : Mem TrieNode) : Prop where
  stands : Stands (State.mark (loaded words) (met (Paths.ofWords words) texts)) place m
  sum_eq : counts.sum = (State.mark (loaded words) (met (Paths.ofWords words) texts)).marks.card

/-- One more search marks what it counts. -/
theorem searched_step {counts : List Nat} (h : Searched words place texts counts m)
    (hfew : (wordsIn words t).card < 2 ^ 31) :
    ∃ n m', search (place []) (toBytes t) m = .ok (n, m') ∧ Searched words place (texts ++ [t]) (counts ++ [n]) m' := by
  have hfit := shown_few hfew
  rw [← visited_eq] at hfit
  obtain ⟨n, m', hrun, hm', hcount, -⟩ := search_ok (t := t) h.stands (fun _ _ => rfl) hfit
  refine ⟨n, m', hrun, ?_, ?_⟩
  · rw [met_concat, ← mark_append]
    exact hm'
  · rw [met_concat, ← mark_append, List.sum_append, List.sum_singleton, h.sum_eq, Nat.add_comm]
    exact hcount

theorem searchAll_concat {root : Addr} {counts : List Nat} {n : Nat} {m₀ m' : Mem TrieNode}
    (hrun : searchAll root texts m₀ = .ok (counts, m)) (hstep : search root (toBytes t) m = .ok (n, m')) :
    searchAll root (texts ++ [t]) m₀ = .ok (counts ++ [n], m') := by
  rw [searchAll, List.foldlM_append]
  change Except.bind (searchAll root texts m₀) _ = _
  rw [hrun]
  change Except.bind (Except.bind (search root (toBytes t) m) _) _ = _
  rw [hstep]
  rfl

theorem searchAll_ok (hm : Stands (loaded words) place m) (texts : List Word)
    (hfew : ∀ t ∈ texts, (wordsIn words t).card < 2 ^ 31) :
    ∃ counts m', searchAll (place []) texts m = .ok (counts, m') ∧ Searched words place texts counts m' := by
  induction texts using List.reverseRecOn with
  | nil =>
      refine ⟨[], m, rfl, ?_, ?_⟩
      · rw [met, List.flatMap_nil, mark_nil]
        exact hm
      · rw [met, List.flatMap_nil, mark_nil]
        rfl
  | append_singleton texts t ih =>
      obtain ⟨counts, m₁, hrun, h⟩ := ih (fun u hu => hfew u (List.mem_append_left _ hu))
      obtain ⟨n, m₂, hstep, h'⟩ := searched_step h (hfew t (by simp))
      exact ⟨counts ++ [n], m₂, searchAll_concat hrun hstep, h'⟩

theorem Searched.markedWords_eq {counts : List Nat} (h : Searched words place texts counts m) :
    markedWords (place []) m = (State.mark (loaded words) (met (Paths.ofWords words) texts)).marks :=
  Counting.markedWords_eq h.stands (marks_words _)

theorem Searched.mem_marked {counts : List Nat} (h : Searched words place texts counts m) {w : Word}
    (hw : w ∈ marked (place []) m) : w ∈ words ∧ ∃ t ∈ texts, w <:+: t := by
  rw [marked_eq h.stands] at hw
  obtain ⟨hword, hmet⟩ := mem_mark_loaded.mp hw
  obtain ⟨t, ht, hvisit⟩ := List.mem_flatMap.mp hmet
  exact ⟨hword, t, ht, visits_infix hvisit⟩

/-- What a search adds to the sum is the number of words that it marks. -/
theorem Searched.gain {counts : List Nat} {n : Nat} {m' : Mem TrieNode} (h : Searched words place texts counts m)
    (h' : Searched words place (texts ++ [t]) (counts ++ [n]) m') :
    markedWords (place []) m ⊆ markedWords (place []) m' ∧
      n = (markedWords (place []) m' \ markedWords (place []) m).ncard := by
  rw [h.markedWords_eq, h'.markedWords_eq]
  have hsub : (State.mark (loaded words) (met (Paths.ofWords words) texts)).marks ⊆
      (State.mark (loaded words) (met (Paths.ofWords words) (texts ++ [t]))).marks := by
    refine mark_subset ?_
    rw [met_concat]
    exact List.subset_append_left _ _
  refine ⟨Finset.coe_subset.mpr hsub, ?_⟩
  have hsum := h'.sum_eq
  rw [List.sum_append, List.sum_singleton, h.sum_eq] at hsum
  rw [← Finset.coe_sdiff, Set.ncard_coe_finset, Finset.card_sdiff_of_subset hsub]
  omega

end Loaded

/-- Over any sequence of searches, only inserted words that occur are marked, the
counts add up to the marked words, and each search counts the words it is the
first to mark. -/
theorem searches_count (A : Allocator TrieNode) (words texts : List Word)
    (hfew : ∀ t ∈ texts, (wordsIn words t).card < 2 ^ 31) :
    ∃ root m counts m', runSteps A (entering words) emptyMem = .ok (root, m) ∧
      searchAll root texts m = .ok (counts, m') ∧
      (∀ w ∈ marked root m', w ∈ words ∧ ∃ t ∈ texts, w <:+: t) ∧
      counts.sum = (markedWords root m').ncard ∧
      ∀ pre t, pre ++ [t] <+: texts → ∃ before n m₁ m₂, searchAll root pre m = .ok (before, m₁) ∧
        searchAll root (pre ++ [t]) m = .ok (before ++ [n], m₂) ∧
        markedWords root m₁ ⊆ markedWords root m₂ ∧ n = (markedWords root m₂ \ markedWords root m₁).ncard := by
  obtain ⟨place, m, hload, hm⟩ := entering_ok A words
  obtain ⟨counts, m', hrun, h⟩ := searchAll_ok hm texts hfew
  refine ⟨place [], m, counts, m', hload, hrun, fun w hw => h.mem_marked hw, ?_, fun pre t hpre => ?_⟩
  · rw [h.sum_eq, h.markedWords_eq, Set.ncard_coe_finset]
  · have hfew' (u : Word) (hu : u ∈ pre ++ [t]) : (wordsIn words u).card < 2 ^ 31 := hfew u (hpre.subset hu)
    obtain ⟨before, m₁, hrun₁, h₁⟩ := searchAll_ok hm pre (fun u hu => hfew' u (List.mem_append_left _ hu))
    obtain ⟨n, m₂, hstep, h₂⟩ := searched_step h₁ (hfew' t (by simp))
    exact ⟨before, n, m₁, m₂, hrun₁, searchAll_concat hrun₁ hstep, h₁.gain h₂⟩

def she : Word := [115, 104, 101]

def he : Word := [104, 101]

theorem searches_count_she : (∀ t ∈ [she ++ [114], he], (wordsIn [she, he] t).card < 2 ^ 31) ∧
    ∃ root m counts m', runSteps bump (entering [she, he]) emptyMem = .ok (root, m) ∧
      searchAll root [she ++ [114], he] m = .ok (counts, m') ∧ counts.sum = (markedWords root m').ncard := by
  have hfew : ∀ t ∈ [she ++ [114], he], (wordsIn [she, he] t).card < 2 ^ 31 := by decide
  obtain ⟨root, m, counts, m', hload, hrun, -, hsum, -⟩ := searches_count bump [she, he] [she ++ [114], he] hfew
  exact ⟨hfew, root, m, counts, m', hload, hrun, hsum⟩

/-- One letter repeated, once, twice and so on up to n times. -/
def spines (n : Nat) : List Word := (List.range n).map (fun k => List.replicate (k + 1) 0)

theorem mem_spines {n : Nat} {v : Word} : v ∈ spines n ↔ ∃ k < n, List.replicate (k + 1) 0 = v := by
  simp [spines]

theorem spines_card (n : Nat) : (spines n).toFinset.card = n := by
  have hnodup : (spines n).Nodup := by
    refine List.Nodup.map (fun j k h => ?_) List.nodup_range
    simpa using congrArg List.length h
  rw [List.toFinset_card_of_nodup hnodup, spines, List.length_map, List.length_range]

theorem spines_shown (n : Nat) : shown (spines n) (List.replicate n 0) = (spines n).toFinset := by
  refine Finset.filter_true_of_mem (fun v hv => ?_)
  obtain ⟨k, hk, rfl⟩ := mem_spines.mp (List.mem_toFinset.mp hv)
  have htext : [] ++ List.replicate n 0 ∈ Paths.ofWords (spines n) := by
    refine Paths.mem_ofWords.mpr (Or.inr ⟨_, mem_spines.mpr ⟨n - 1, by omega, ?_⟩, List.prefix_refl _⟩)
    rw [Nat.sub_add_cancel (by omega), List.nil_append]
  rw [cut_path _ [] htext]
  refine Or.inl ⟨by simp, Or.inl ⟨List.replicate (n - (k + 1)) 0, ?_⟩⟩
  rw [List.replicate_append_replicate, List.nil_append]
  congr 1
  omega

theorem search_outside (root : Addr) (m : Mem TrieNode) (matchs : List UInt8) :
    search root (127 :: matchs) m = .error .outOfBounds := rfl

/-- A text may hold more words than an int can count, or a char that is no index. -/
theorem counts_overflow :
    (∃ root m, runSteps bump (entering (spines (2 ^ 31))) emptyMem = .ok (root, m) ∧
      search root (toBytes (List.replicate (2 ^ 31) 0)) m = .error .overflow) ∧
    ∃ root m, runSteps bump (entering []) emptyMem = .ok (root, m) ∧ search root [127] m = .error .outOfBounds := by
  constructor
  · obtain ⟨place, m, hload, hm⟩ := entering_ok bump (spines (2 ^ 31))
    refine ⟨place [], m, hload, search_first_overflow hm ?_⟩
    rw [spines_shown, spines_card]
  · obtain ⟨place, m, hload, -⟩ := entering_ok bump []
    exact ⟨place [], m, hload, search_outside _ _ _⟩

end StudyNotes.Automaton.Counting
