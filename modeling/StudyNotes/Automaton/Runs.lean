import StudyNotes.Automaton.FailLinks

namespace StudyNotes.Automaton.Runs

open Heap.Program Heap.Triple Words.Suffixes Program Memory Insertion FailLinks

inductive Step
  | insert (u : Word)
  | build

def stepOf (A : Allocator TrieNode) (root : Addr) : Step → TrieM Bool
  | .insert u => insertTree A root (toBytes u)
  | .build => buildFailPtr root

/-- Words entered and failure pointers built in any order, from a new root on. -/
def runSteps (A : Allocator TrieNode) (steps : List Step) : TrieM Addr := do
  let root ← createNode A 114
  steps.foldlM (fun root s => do
    let _ ← stepOf A root s
    return root) root

def State.step (S : State) : Step → State
  | .insert u => State.addWord S u
  | .build => State.built S

/-- What the steps come to, on words instead of pointers. -/
def State.after (steps : List Step) : State := steps.foldl State.step State.init

theorem after_concat (steps : List Step) (s : Step) :
    State.after (steps ++ [s]) = State.step (State.after steps) s := List.foldl_concat _ _ _ _

/-- A state stands in the memory with its root at the given address. -/
def Rooted (S : State) (root : Addr) (m : Mem TrieNode) : Prop := ∃ place, root = place [] ∧ Stands S place m

theorem stepOf_spec (A : Allocator TrieNode) {S : State} (root : Addr) (s : Step) :
    Spec (Rooted S root) (stepOf A root s) (fun _ => Rooted (State.step S s) root) (fun _ => False) := by
  rintro m ⟨place, rfl, hm⟩
  cases s with
  | insert u =>
      refine Spec.post (insertTree_spec place u) ?_ m hm
      rintro r m ⟨-, place', hroot, hm⟩
      exact ⟨place', hroot.symm, hm⟩
  | build =>
      refine Spec.post buildFailPtr_spec ?_ m hm
      rintro r m ⟨-, hm⟩
      exact ⟨place, rfl, hm⟩

/-- The pointer program follows the run on words and never fails. -/
theorem runSteps_spec (A : Allocator TrieNode) (steps : List Step) :
    Spec (fun _ => True) (runSteps A steps) (Rooted (State.after steps)) (fun _ => False) := by
  rw [runSteps]
  refine spec_bind newTrie_spec (fun root => ?_)
  rintro m ⟨place, rfl, hm⟩
  refine spec_foldlM (I := fun pre => Rooted (State.after pre)) steps (fun pre s _ root => ?_) m ⟨place, rfl, hm⟩
  rw [after_concat]
  exact spec_bind (stepOf_spec A root s) (fun _ => spec_pure (fun _ hm => hm))

/-- Some words, and then the failure pointers. -/
def entering (words : List Word) : List Step := words.map .insert ++ [.build]

def loaded (words : List Word) : State where
  nodes := Paths.ofWords words
  words := words.toFinset
  marks := ∅
  fail := goal (Paths.ofWords words)

theorem after_inserts (words : List Word) :
    (State.after (words.map .insert)).nodes = Paths.ofWords words ∧
      (State.after (words.map .insert)).words = words.toFinset ∧ (State.after (words.map .insert)).marks = ∅ := by
  induction words using List.reverseRecOn with
  | nil => exact ⟨rfl, rfl, rfl⟩
  | append_singleton words u ih =>
      obtain ⟨hnodes, hwords, hmarks⟩ := ih
      rw [List.map_append, List.map_singleton, after_concat, Paths.ofWords_concat, ← hnodes, List.toFinset_append,
        ← hwords, Finset.union_comm]
      exact ⟨rfl, rfl, hmarks⟩

theorem after_entering (words : List Word) : State.after (entering words) = loaded words := by
  obtain ⟨hnodes, hwords, hmarks⟩ := after_inserts words
  rw [entering, after_concat, State.step, State.built, loaded, hnodes, hwords, hmarks]

theorem entering_ok (A : Allocator TrieNode) (words : List Word) :
    ∃ place m, runSteps A (entering words) emptyMem = .ok (place [], m) ∧ Stands (loaded words) place m := by
  obtain ⟨root, m, hrun, place, rfl, hm⟩ := (runSteps_spec A (entering words) emptyMem trivial).exists_ok
  rw [after_entering] at hm
  exact ⟨place, m, hrun, hm⟩

/-- Every node other than the root is linked to the node that spells the longest
proper suffix of its word among the paths of the trie. -/
structure Linked (root : Addr) (m : Mem TrieNode) : Prop where
  root_null : ∃ node, m.cells.lookup root = some node ∧ node.failPtr = 0
  longest : ∀ w a, w ≠ [] → walk m root w = some a → ∃ node v, m.cells.lookup a = some node ∧
    v <:+ w ∧ v ≠ w ∧ walk m root v = some node.failPtr ∧
    ∀ u, u <:+ w → u ≠ w → (walk m root u).isSome → u.length ≤ v.length

theorem linked_of_built {S : State} {place : Word → Addr} {m : Mem TrieNode} (h : Stands (State.built S) place m) :
    Linked (place []) m where
  root_null := ⟨_, h.live [] S.nodes.nil_mem, rfl⟩
  longest := by
    intro w a hw ha
    rw [walk_root h] at ha
    split at ha
    · next hmem =>
        cases ha
        have hne : fallback S.nodes w ≠ w := fun heq => by
          have hlt := fallback_length (N := S.nodes) hw
          rw [heq] at hlt
          omega
        refine ⟨_, fallback S.nodes w, h.live w hmem, fallback_suffix S.nodes w, hne, ?_, fun u hu hne' hwalk => ?_⟩
        · have hback : fallback S.nodes w ∈ (State.built S).nodes := fallback_mem S.nodes w
          rw [walk_root h, if_pos hback]
          simp only [block, State.built, goal, if_neg hw]
        · rw [walk_root h] at hwalk
          split at hwalk
          · next hu' => exact (fallback_max hu hne' hu').length_le
          · simp at hwalk
    · cases ha

/-- After any history of insertions and builds, another build keeps the trie and
ends with every failure pointer at the longest proper suffix. -/
theorem build_links (A : Allocator TrieNode) (steps : List Step) :
    ∃ root m m', runSteps A steps emptyMem = .ok (root, m) ∧ buildFailPtr root m = .ok (true, m') ∧
      (∀ w, walk m' root w = walk m root w) ∧ Linked root m' := by
  obtain ⟨root, m, hrun, place, rfl, hm⟩ := (runSteps_spec A steps emptyMem trivial).exists_ok
  obtain ⟨r, m', hbuild, rfl, hm'⟩ := (buildFailPtr_spec m hm).exists_ok
  refine ⟨place [], m, m', hrun, hbuild, fun w => ?_, linked_of_built hm'⟩
  rw [walk_root hm, walk_root hm']
  rfl

end StudyNotes.Automaton.Runs
