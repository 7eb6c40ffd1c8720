import StudyNotes.Automaton.Counting

namespace StudyNotes.Automaton.Coverage

open Heap.Program Words.Suffixes Words.GreedyCut Program Memory Runs Counting

/-- Every nonempty word that occurs in the text begins a piece of it, or ends a
piece that a mismatch has closed. -/
def Exposed (words : List Word) (text : Word) : Prop :=
  ∀ v ∈ words, v ≠ [] → v <:+: text → Shows (cut (Paths.ofWords words) [] text) v

instance (words : List Word) (text : Word) : Decidable (Exposed words text) := by
  unfold Exposed
  infer_instance

/-- The search marks and counts all nonempty words that occur in the text. -/
def FindsAll (words : List Word) (text : Word) (root : Addr) (m : Mem TrieNode) : Prop :=
  ∃ n m', search root (toBytes text) m = .ok (n, m') ∧
    (∀ v ∈ words, v ≠ [] → v <:+: text → v ∈ marked root m') ∧ ((wordsIn words text).erase []).card ≤ n

section

variable {words : List Word} {text : Word} {place : Word → Addr} {m : Mem TrieNode}

theorem wordsIn_shown (h : Exposed words text) : (wordsIn words text).erase [] ⊆ shown words text := by
  intro v hv
  obtain ⟨hne, hin⟩ := Finset.mem_erase.mp hv
  obtain ⟨hword, hinfix⟩ := Finset.mem_filter.mp hin
  rw [List.mem_toFinset] at hword
  exact mem_shown.mpr ⟨hword, h v hword hne hinfix⟩

theorem findsAll_of_exposed (hm : Stands (loaded words) place m) (h : Exposed words text)
    (hfit : (shown words text).card < 2 ^ 31) : FindsAll words text (place []) m := by
  obtain ⟨m', hrun, hmarked⟩ := search_first hm hfit
  refine ⟨_, m', hrun, fun v hv hne hinfix => ?_, Finset.card_le_card (wordsIn_shown h)⟩
  rw [hmarked]
  exact mem_shown.mpr ⟨hv, h v hv hne hinfix⟩

theorem exposed_of_findsAll (hm : Stands (loaded words) place m) (h : FindsAll words text (place []) m) :
    Exposed words text ∧ (shown words text).card < 2 ^ 31 := by
  obtain ⟨n, m', hrun, hall, -⟩ := h
  have hfit : (shown words text).card < 2 ^ 31 := by
    by_contra hbig
    rw [search_first_overflow hm (Nat.le_of_not_lt hbig)] at hrun
    cases hrun
  obtain ⟨m'', hrun', hmarked⟩ := search_first hm hfit
  rw [hrun] at hrun'
  cases hrun'
  refine ⟨fun v hv hne hinfix => ?_, hfit⟩
  have hv' := hall v hv hne hinfix
  rw [hmarked] at hv'
  exact (mem_shown.mp hv').2

end

/-- A search finds every word in the text exactly when no occurring word is hidden
inside the pieces into which the scan cuts the text. -/
theorem search_complete_iff (A : Allocator TrieNode) (words : List Word) (text : Word) :
    ∃ root m, runSteps A (entering words) emptyMem = .ok (root, m) ∧
      (FindsAll words text root m ↔ Exposed words text ∧ (shown words text).card < 2 ^ 31) := by
  obtain ⟨place, m, hload, hm⟩ := entering_ok A words
  exact ⟨place [], m, hload, exposed_of_findsAll hm, fun h => findsAll_of_exposed hm h.1 h.2⟩

/-- The word he is hidden in she when the text ends there. -/
theorem he_missed : ∃ root m m', runSteps bump (entering [she, he]) emptyMem = .ok (root, m) ∧
    search root (toBytes she) m = .ok (1, m') ∧ he <:+: she ∧ he ∉ marked root m' := by
  obtain ⟨place, m, hload, hm⟩ := entering_ok bump [she, he]
  have hshown : shown [she, he] she = {she} := by decide
  obtain ⟨m', hrun, hmarked⟩ := search_first (t := she) hm (by rw [hshown]; decide)
  rw [hshown] at hrun hmarked
  refine ⟨place [], m, m', hload, hrun, by decide, ?_⟩
  rw [hmarked]
  decide

end StudyNotes.Automaton.Coverage
