import StudyNotes.Automaton.Counting

namespace StudyNotes.Automaton.Indices

open Heap.Program Heap.Triple Words.GreedyCut Program Memory Insertion Runs Search Counting

/-- The value of a char, which is signed on the build platform. Neither the int8_t of insert_tree nor
the promotions to int in do_find_fail_ptr and search change it. -/
def charValue (c : UInt8) : Int := c.toInt8.toInt

/-- The value is an index of next. -/
def IsIndex (c : UInt8) : Prop := 0 ≤ charValue c ∧ charValue c < 127

theorem isIndex_iff (c : UInt8) : IsIndex c ↔ c.toNat < 127 := by
  have hvalue : charValue c = if 2 * c.toNat < 256 then (c.toNat : Int) else c.toNat - 256 :=
    BitVec.toInt_eq_toNat_cond c.toBitVec
  have hlt := c.toNat_lt
  rw [IsIndex, hvalue]
  split <;> omega

instance (c : UInt8) : Decidable (IsIndex c) := decidable_of_iff _ (isIndex_iff c).symm

/-- The access goes to the element at the value, and is out of bounds for every other value. -/
theorem slot_eq (c : UInt8) :
    slot c = if IsIndex c then pure (Fin.ofNat 127 (charValue c).toNat) else fail .outOfBounds := by
  have hlt := c.toNat_lt
  have hvalue : charValue c = if 2 * c.toNat < 256 then (c.toNat : Int) else c.toNat - 256 :=
    BitVec.toInt_eq_toNat_cond c.toBitVec
  by_cases h : c.toNat < 127
  · have hnat : (charValue c).toNat = c.toNat := by
      rw [hvalue, if_pos (by omega)]
      rfl
    rw [slot, dif_pos h, if_pos ((isIndex_iff c).mpr h), hnat]
    exact congrArg pure (Fin.ext (Nat.mod_eq_of_lt h).symm)
  · rw [slot, dif_neg h, if_neg (fun hi => h ((isIndex_iff c).mp hi))]

theorem slot_of_not {c : UInt8} (h : ¬IsIndex c) : slot c = fail .outOfBounds := by rw [slot_eq, if_neg h]

inductive Call
  | insert (words : List UInt8)
  | build
  | scan (matchs : List UInt8)

/-- The bytes that a call is given. -/
def Call.bytes : Call → List UInt8
  | .insert words => words
  | .build => []
  | .scan matchs => matchs

def Call.run (A : Allocator TrieNode) (root : Addr) : Call → TrieM Unit
  | .insert words => do
      let _ ← insertTree A root words
  | .build => do
      let _ ← buildFailPtr root
  | .scan matchs => do
      let _ ← search root matchs

/-- Calls in any order on a new root. -/
def session (A : Allocator TrieNode) (calls : List Call) : TrieM Unit := do
  let root ← createNode A 114
  calls.forM (Call.run A root)

/-- No access to next is out of bounds. -/
def InBounds (A : Allocator TrieNode) (calls : List Call) : Prop := session A calls emptyMem ≠ .error .outOfBounds

section Safety

/-- All characters stored in nodes are indices. -/
def Chars (m : Mem TrieNode) : Prop := ∀ a node, m.cells.lookup a = some node → IsIndex node.ch

/-- The program keeps stored characters to indices and makes no access out of bounds. -/
def Safe {γ : Type} (x : TrieM γ) : Prop := Spec Chars x (fun _ => Chars) (· ≠ .outOfBounds)

variable {α γ : Type} {A : Allocator TrieNode} {c : UInt8}

theorem safe_pure (v : γ) : Safe (pure v : TrieM γ) := spec_pure (fun _ h => h)

theorem safe_fail {e : Fault} (h : e ≠ .outOfBounds) : Safe (fail e : TrieM γ) := spec_fail h

theorem safe_bind {x : TrieM α} {f : α → TrieM γ} (hx : Safe x) (hf : ∀ v, Safe (f v)) : Safe (x >>= f) :=
  spec_bind hx hf

theorem safe_ite {p : Prop} [Decidable p] {x y : TrieM γ} (hx : Safe x) (hy : Safe y) : Safe (if p then x else y) :=
  spec_ite (fun _ => hx) (fun _ => hy)

theorem dangling_ne : Fault.dangling ≠ .outOfBounds := by decide

theorem safe_load {a : Addr} {f : TrieNode → TrieM γ} (h : ∀ node, IsIndex node.ch → Safe (f node)) :
    Safe (load a >>= f) := by
  intro m hm
  change Ends (Except.bind (load a m) _) _ _
  rw [load]
  cases hl : m.cells.lookup a with
  | none => exact dangling_ne
  | some node => exact h node (hm a node hl) m hm

theorem chars_insert {m : Mem TrieNode} {a : Addr} {node : TrieNode} {clock : Nat} (hm : Chars m) (hnode : IsIndex node.ch) :
    Chars ⟨m.cells.insert a node, clock⟩ := by
  intro a' node' h
  by_cases ha : a' = a
  · subst ha
    rw [Finmap.lookup_insert] at h
    rwa [← Option.some.inj h]
  · rw [Finmap.lookup_insert_of_ne _ ha] at h
    exact hm a' node' h

theorem safe_store {a : Addr} {node : TrieNode} (h : IsIndex node.ch) : Safe (store a node) := by
  intro m hm
  rw [store]
  cases m.cells.lookup a with
  | none => exact dangling_ne
  | some old => exact chars_insert hm h

theorem safe_createNode (h : IsIndex c) : Safe (createNode A c) := fun _ hm => chars_insert hm h

theorem safe_liveBlocks : Safe (liveBlocks : TrieM Nat) := fun _ hm => hm

theorem safe_slot (h : IsIndex c) : Safe (slot c) := by
  rw [slot_eq, if_pos h]
  exact safe_pure _

theorem safe_foldlM {ι σ : Type} {f : σ → ι → TrieM σ} {l : List ι} (h : ∀ x ∈ l, ∀ s, Safe (f s x)) (s : σ) :
    Safe (l.foldlM f s) := by
  induction l generalizing s with
  | nil => exact safe_pure s
  | cons x l ih =>
      rw [List.foldlM_cons]
      exact safe_bind (h x List.mem_cons_self s) (ih (fun y hy => h y (List.mem_cons_of_mem x hy)))

theorem safe_descend (h : IsIndex c) (cur : Addr) : Safe (descend A cur c) := by
  refine safe_bind (safe_slot h) (fun i => safe_load (fun node _ => safe_ite ?_ (safe_pure _)))
  refine safe_bind (safe_createNode h) (fun child => safe_load (fun node hnode => ?_))
  exact safe_bind (safe_store hnode) (fun _ => safe_pure child)

theorem safe_insertTree {words : List UInt8} (h : ∀ c ∈ words, IsIndex c) (root : Addr) :
    Safe (insertTree A root words) := by
  refine safe_bind (safe_foldlM (fun c hc cur => safe_descend (h c hc) cur) root) (fun cur => ?_)
  exact safe_load (fun node hnode => safe_bind (safe_store hnode) (fun _ => safe_pure true))

theorem safe_failLoop (h : IsIndex c) (defaultPtr : Addr) (fuel : Nat) (ptrfail : Addr) :
    Safe (failLoop c defaultPtr fuel ptrfail) := by
  induction fuel generalizing ptrfail with
  | zero => exact safe_fail nofun
  | succ fuel ih =>
      refine safe_ite (safe_pure defaultPtr) (safe_bind (safe_slot h) (fun i => safe_load (fun node _ => ?_)))
      exact safe_ite (safe_pure _) (ih node.failPtr)

theorem safe_doFindFailPtr (h : IsIndex c) (cur defaultPtr : Addr) : Safe (doFindFailPtr cur c defaultPtr) :=
  safe_load (fun node _ => safe_bind safe_liveBlocks (fun bound => safe_failLoop h defaultPtr (bound + 1) node.failPtr))

/-- The character handed to do_find_fail_ptr is one that a node has stored. -/
theorem safe_visitChild (root cur : Addr) (Q : List Addr) (i : Letter) : Safe (visitChild root cur Q i) := by
  refine safe_load (fun node _ => safe_ite (safe_load (fun child hchild => ?_)) (safe_pure Q))
  refine safe_bind (safe_doFindFailPtr hchild cur root) (fun f => safe_load (fun child hchild => ?_))
  exact safe_bind (safe_store hchild) (fun _ => safe_pure _)

theorem safe_bfsLoop (root : Addr) (fuel : Nat) (Q : List Addr) : Safe (bfsLoop root fuel Q) := by
  induction fuel generalizing Q with
  | zero =>
      cases Q with
      | nil => exact safe_pure ()
      | cons cur Q => exact safe_fail nofun
  | succ fuel ih =>
      cases Q with
      | nil => exact safe_pure ()
      | cons cur Q => exact safe_bind (safe_foldlM (fun i _ Q => safe_visitChild root cur Q i) Q) ih

theorem safe_buildFailPtr (root : Addr) : Safe (buildFailPtr root) := by
  refine safe_load (fun node hnode => safe_bind (safe_store hnode)
    (fun _ => safe_bind safe_liveBlocks (fun bound => ?_)))
  exact safe_bind (safe_bfsLoop root bound [root]) (fun _ => safe_pure true)

theorem safe_doCheckAndReturnCnt (cur : Addr) : Safe (doCheckAndReturnCnt cur) :=
  safe_load (fun _ hnode => safe_ite (safe_bind (safe_store hnode) (fun _ => safe_pure _)) (safe_pure 0))

theorem safe_addCount (count n : Nat) : Safe (addCount count n) := safe_ite (safe_pure _) (safe_fail nofun)

theorem safe_unwind (root : Addr) (fuel : Nat) (cur : Addr) (count : Nat) : Safe (unwind root fuel cur count) := by
  induction fuel generalizing cur count with
  | zero => exact safe_fail nofun
  | succ fuel ih =>
      refine safe_ite (safe_load (fun node _ => ?_)) (safe_pure (cur, count))
      refine safe_bind (safe_doCheckAndReturnCnt node.failPtr) (fun n => safe_bind (safe_addCount count n) (fun count => ?_))
      exact ih node.failPtr count

theorem safe_scanByte (h : IsIndex c) (root : Addr) (s : Addr × Nat) : Safe (scanByte root s c) := by
  refine safe_bind (safe_slot h) (fun i => safe_load (fun node _ => safe_ite ?_ ?_))
  · refine safe_bind (safe_doCheckAndReturnCnt (node.next i)) (fun n => ?_)
    exact safe_bind (safe_addCount s.2 n) (fun count => safe_pure (node.next i, count))
  · exact safe_bind safe_liveBlocks (fun bound => safe_unwind root (bound + 1) s.1 s.2)

theorem safe_search {matchs : List UInt8} (h : ∀ c ∈ matchs, IsIndex c) (root : Addr) : Safe (search root matchs) :=
  safe_bind (safe_foldlM (fun c hc s => safe_scanByte (h c hc) root s) (root, 0)) (fun s => safe_pure s.2)

theorem safe_run {k : Call} (h : ∀ c ∈ k.bytes, IsIndex c) (root : Addr) : Safe (k.run A root) := by
  cases k with
  | insert words => exact safe_bind (safe_insertTree h root) (fun _ => safe_pure ())
  | build => exact safe_bind (safe_buildFailPtr root) (fun _ => safe_pure ())
  | scan matchs => exact safe_bind (safe_search h root) (fun _ => safe_pure ())

theorem safe_forM {root : Addr} {calls : List Call} (h : ∀ k ∈ calls, ∀ c ∈ k.bytes, IsIndex c) :
    Safe (calls.forM (Call.run A root)) := by
  induction calls with
  | nil => exact safe_pure ()
  | cons k calls ih =>
      rw [List.forM_eq_forM, List.forM_cons]
      exact safe_bind (safe_run (h k List.mem_cons_self) root)
        (fun _ => ih (fun k' hk' => h k' (List.mem_cons_of_mem k hk')))

/-- Calls over the characters 0 to 126 stay in bounds, in whatever order they come. -/
theorem inBounds_of_isIndex {calls : List Call} (h : ∀ k ∈ calls, ∀ c ∈ k.bytes, IsIndex c) : InBounds A calls := by
  have hsafe : Safe (session A calls) := safe_bind (safe_createNode (by decide)) (fun root => safe_forM h)
  have hends := hsafe emptyMem (fun a node hl => by cases hl)
  intro herror
  rw [herror] at hends
  exact hends rfl

end Safety

/-- The words are inserted, the failure pointers built and the text searched. -/
def entry (words : List (List UInt8)) (text : List UInt8) : List Call :=
  words.map .insert ++ [.build, .scan text]

theorem isIndex_toByte (c : Letter) : IsIndex (toByte c) := by
  rw [isIndex_iff, toByte, UInt8.toNat_ofNat', Nat.mod_eq_of_lt (by omega)]
  exact c.isLt

theorem isIndex_of_mem {u : Word} {c : UInt8} (h : c ∈ toBytes u) : IsIndex c := by
  obtain ⟨d, -, rfl⟩ := List.mem_map.mp h
  exact isIndex_toByte d

theorem exists_letter {c : UInt8} (h : IsIndex c) : ∃ d, toByte d = c := by
  rw [isIndex_iff] at h
  refine ⟨⟨c.toNat, h⟩, ?_⟩
  rw [toByte, UInt8.ofNat_toNat]

/-- Bytes are letters, up to the first that is none. -/
theorem letters_or_stray (bytes : List UInt8) :
    (∃ u, bytes = toBytes u) ∨ ∃ u c v, bytes = toBytes u ++ c :: v ∧ ¬IsIndex c := by
  induction bytes with
  | nil => exact Or.inl ⟨[], rfl⟩
  | cons b bytes ih =>
      by_cases hb : IsIndex b
      · obtain ⟨d, rfl⟩ := exists_letter hb
        rcases ih with ⟨u, rfl⟩ | ⟨u, c, v, rfl, hc⟩
        · exact Or.inl ⟨d :: u, rfl⟩
        · exact Or.inr ⟨d :: u, c, v, rfl, hc⟩
      · exact Or.inr ⟨[], b, bytes, rfl, hb⟩

theorem words_or_stray (words : List (List UInt8)) :
    (∃ ws : List Word, words = ws.map toBytes) ∨
      ∃ (ws : List Word) (u : Word) (c : UInt8) (v : List UInt8) (post : List (List UInt8)),
        words = ws.map toBytes ++ (toBytes u ++ c :: v) :: post ∧ ¬IsIndex c := by
  induction words with
  | nil => exact Or.inl ⟨[], rfl⟩
  | cons w words ih =>
      rcases letters_or_stray w with ⟨u, rfl⟩ | ⟨u, c, v, rfl, hc⟩
      · rcases ih with ⟨ws, rfl⟩ | ⟨ws, u', c, v, post, rfl, hc⟩
        · exact Or.inl ⟨u :: ws, rfl⟩
        · exact Or.inr ⟨u :: ws, u', c, v, post, rfl, hc⟩
      · exact Or.inr ⟨[], u, c, v, words, rfl, hc⟩

section Faults

variable {α γ : Type} {P : Mem TrieNode → Prop} {Q : α → Mem TrieNode → Prop} {A : Allocator TrieNode}

/-- The program ends with the given fault. -/
def Faults (P : Mem TrieNode → Prop) (x : TrieM γ) (e : Fault) : Prop := ∀ m, P m → x m = .error e

theorem faults_bind {x : TrieM α} {f : α → TrieM γ} {e : Fault} (hx : Spec P x Q (fun _ => False))
    (hf : ∀ v, Faults (Q v) (f v) e) : Faults P (x >>= f) e := by
  intro m hm
  obtain ⟨v, m', hok, hQ⟩ := (hx m hm).exists_ok
  change Except.bind (x m) _ = _
  rw [hok]
  exact hf v m' hQ

theorem faults_bind_left {x : TrieM α} {f : α → TrieM γ} {e : Fault} (hx : Faults P x e) : Faults P (x >>= f) e := by
  intro m hm
  change Except.bind (x m) _ = _
  rw [hx m hm]
  rfl

theorem faults_fail (e : Fault) : Faults P (fail e : TrieM γ) e := fun _ _ => rfl

theorem faults_insertTree {S : State} {place : Word → Addr} {u : Word} {c : UInt8} {v : List UInt8} (hc : ¬IsIndex c) :
    Faults (Stands S place) (insertTree A (place []) (toBytes u ++ c :: v)) .outOfBounds := by
  apply faults_bind_left
  rw [List.foldlM_append]
  refine faults_bind (descends_spec place u) (fun cur => ?_)
  rw [List.foldlM_cons, descend, slot_of_not hc]
  exact faults_bind_left (faults_bind_left (faults_fail _))

end Faults

section Scan

variable {ws : List Word} {place : Word → Addr} {m : Mem TrieNode}

/-- The scan of a text over the letters returns as long as the words shown can be counted. -/
theorem scan_cases (hm : Stands (loaded ws) place m) (u : Word) :
    ((shown ws u).card < 2 ^ 31 ∧ ∃ s m', (toBytes u).foldlM (scanByte (place [])) (place [], 0) m = .ok (s, m')) ∨
      (2 ^ 31 ≤ (shown ws u).card ∧ (toBytes u).foldlM (scanByte (place [])) (place [], 0) m = .error .overflow) := by
  have hzero : (loaded ws).marks.card = 0 := rfl
  have htally : Tally (loaded ws) place [] 0 m := ⟨by rwa [mark_nil], by rw [mark_nil, hzero], by decide⟩
  have hspec := scan_spec (fun _ _ => rfl) u [] [] 0 (loaded ws).nodes.nil_mem (fun v hv => hv) m htally
  cases hrun : (toBytes u).foldlM (scanByte (place [])) (place [], 0) m with
  | error e =>
      rw [hrun] at hspec
      obtain ⟨rfl, hbig⟩ : TooMany (loaded ws) (visits (loaded ws).nodes [] u) e := hspec
      have hcard : (State.mark (loaded ws) (visits (loaded ws).nodes [] u)).marks.card = (shown ws u).card :=
        congrArg Finset.card mark_visits
      exact Or.inr ⟨by omega, rfl⟩
  | ok r =>
      rw [hrun] at hspec
      obtain ⟨-, hcount, hsmall⟩ : Tally (loaded ws) place (visits (loaded ws).nodes [] u) r.1.2 r.2 := hspec
      have hcard : (State.mark (loaded ws) (visits (loaded ws).nodes [] u)).marks.card = (shown ws u).card :=
        congrArg Finset.card mark_visits
      exact Or.inl ⟨by omega, r.1, r.2, rfl⟩

end Scan

/-- The call of a step on letters. -/
def Step.call : Step → Call
  | .insert u => .insert (toBytes u)
  | .build => .build

theorem entry_eq (ws : List Word) (text : List UInt8) :
    entry (ws.map toBytes) text = (entering ws).map Step.call ++ [.scan text] := by
  simp [entry, entering, Step.call, Function.comp_def]

variable {A : Allocator TrieNode}

theorem run_call_spec {S : State} (root : Addr) (s : Step) :
    Spec (Rooted S root) (Call.run A root (Step.call s)) (fun _ => Rooted (State.step S s) root) (fun _ => False) := by
  have hrun : Call.run A root (Step.call s) = stepOf A root s >>= fun _ => pure () := by cases s <;> rfl
  rw [hrun]
  exact spec_bind (stepOf_spec A root s) (fun _ => spec_pure (fun _ hm => hm))

theorem run_calls_spec {S : State} (root : Addr) (steps : List Step) :
    Spec (Rooted S root) ((steps.map Step.call).forM (Call.run A root))
      (fun _ => Rooted (steps.foldl State.step S) root) (fun _ => False) := by
  induction steps generalizing S with
  | nil => exact spec_pure (fun _ hm => hm)
  | cons s steps ih =>
      rw [List.map_cons, List.forM_eq_forM, List.forM_cons]
      exact spec_bind (run_call_spec root s) (fun _ => ih)

/-- A word with a stray byte is the end of the session. -/
theorem session_stray {ws : List Word} {u : Word} {c : UInt8} (hc : ¬IsIndex c) (v : List UInt8)
    (calls : List Call) :
    session A (ws.map (fun w => Call.insert (toBytes w)) ++ .insert (toBytes u ++ c :: v) :: calls) emptyMem =
      .error .outOfBounds := by
  refine faults_bind (P := fun _ => True) newTrie_spec (fun root => ?_) emptyMem trivial
  rintro m ⟨place, rfl, hm⟩
  have hcalls : ws.map (fun w => Call.insert (toBytes w)) = (ws.map Step.insert).map Step.call := by
    simp [Step.call, Function.comp_def]
  rw [hcalls, List.forM_eq_forM, List.forM_append]
  refine faults_bind (run_calls_spec (place []) _) (fun _ => ?_) m ⟨place, rfl, hm⟩
  rintro m ⟨place', hroot, hm⟩
  rw [List.forM_cons, hroot]
  exact faults_bind_left (faults_bind_left (faults_insertTree hc)) m hm

/-- After words over the letters the session comes to its search. -/
theorem session_entered (A : Allocator TrieNode) (ws : List Word) (text : List UInt8) :
    ∃ place m, Stands (loaded ws) place m ∧
      session A (entry (ws.map toBytes) text) emptyMem = (do let _ ← search (place []) text) m := by
  have hload : Spec (fun _ => True) (createNode A 114 >>= fun root => do
      ((entering ws).map Step.call).forM (Call.run A root)
      return root) (Rooted (loaded ws)) (fun _ => False) := by
    refine spec_bind newTrie_spec (fun root => ?_)
    rintro m ⟨place, rfl, hm⟩
    refine spec_bind (run_calls_spec (place []) (entering ws)) (fun _ => ?_) m ⟨place, rfl, hm⟩
    have hafter : (entering ws).foldl State.step State.init = loaded ws := after_entering ws
    rw [hafter]
    exact spec_pure (fun _ hm => hm)
  obtain ⟨root, m, hrun, place, rfl, hm⟩ := (hload emptyMem trivial).exists_ok
  refine ⟨place, m, hm, ?_⟩
  have hsession : session A (entry (ws.map toBytes) text) = (createNode A 114 >>= fun root => do
      ((entering ws).map Step.call).forM (Call.run A root)
      return root) >>= fun root => (do let _ ← search root text) := by
    simp [session, entry_eq, Call.run]
  rw [hsession]
  change Except.bind _ _ = _
  rw [hrun]
  rfl

/-- There is only one first stray byte. -/
theorem stray_unique {u u' : Word} {c c' : UInt8} {v v' : List UInt8} (h : toBytes u ++ c :: v = toBytes u' ++ c' :: v')
    (hc : ¬IsIndex c) (hc' : ¬IsIndex c') : u = u' := by
  induction u generalizing u' with
  | nil =>
      cases u' with
      | nil => rfl
      | cons d u' =>
          change c :: v = toByte d :: (toBytes u' ++ c' :: v') at h
          rw [(List.cons.inj h).1] at hc
          exact absurd (isIndex_toByte d) hc
  | cons d u ih =>
      cases u' with
      | nil =>
          change toByte d :: (toBytes u ++ c :: v) = c' :: v' at h
          rw [← (List.cons.inj h).1] at hc'
          exact absurd (isIndex_toByte d) hc'
      | cons d' u' =>
          change toByte d :: (toBytes u ++ c :: v) = toByte d' :: (toBytes u' ++ c' :: v') at h
          rw [ih (List.cons.inj h).2, toByte_injective (List.cons.inj h).1]

/-- The words are over the letters, and so is the text as far as the search reads it: an int cannot
count 2^31 words, and what stands behind them is not read any more. -/
def OverLetters (words : List (List UInt8)) (text : List UInt8) : Prop :=
  ∃ ws : List Word, words = ws.map toBytes ∧
    ∀ u c v, text = toBytes u ++ c :: v → (shown ws u).card < 2 ^ 31 → IsIndex c

theorem search_stray {ws : List Word} {place : Word → Addr} {m : Mem TrieNode} (hm : Stands (loaded ws) place m)
    (u : Word) {c : UInt8} (hc : ¬IsIndex c) (v : List UInt8) :
    search (place []) (toBytes u ++ c :: v) m =
      .error (if (shown ws u).card < 2 ^ 31 then .outOfBounds else .overflow) := by
  rw [search, List.foldlM_append]
  change Except.bind (Except.bind ((toBytes u).foldlM (scanByte (place [])) (place [], 0) m) _) _ = _
  rcases scan_cases hm u with ⟨hfew, s, m', hrun⟩ | ⟨hmany, hrun⟩
  · rw [hrun, if_pos hfew]
    have hfault : Faults (fun _ => True) ((c :: v).foldlM (scanByte (place [])) s) .outOfBounds := by
      rw [List.foldlM_cons, scanByte, slot_of_not hc]
      exact faults_bind_left (faults_bind_left (faults_fail _))
    change Except.bind ((c :: v).foldlM (scanByte (place [])) s m') _ = _
    rw [hfault m' trivial]
    rfl
  · rw [hrun, if_neg (by omega)]
    rfl

theorem entered_inBounds_iff (ws : List Word) (text : List UInt8) :
    InBounds A (entry (ws.map toBytes) text) ↔
      ∀ u c v, text = toBytes u ++ c :: v → (shown ws u).card < 2 ^ 31 → IsIndex c := by
  rcases letters_or_stray text with ⟨t, rfl⟩ | ⟨u, c, v, rfl, hc⟩
  · refine iff_of_true (inBounds_of_isIndex ?_) (fun u c v h _ => isIndex_of_mem (u := t) (by rw [h]; simp))
    rw [entry_eq]
    intro k hk c hck
    rcases List.mem_append.mp hk with hk | hk
    · obtain ⟨s, -, rfl⟩ := List.mem_map.mp hk
      cases s with
      | insert u => exact isIndex_of_mem hck
      | build => cases hck
    · obtain rfl := List.mem_singleton.mp hk
      exact isIndex_of_mem hck
  · obtain ⟨place, m, hm, hrun⟩ := session_entered A ws (toBytes u ++ c :: v)
    have hend : session A (entry (ws.map toBytes) (toBytes u ++ c :: v)) emptyMem =
        .error (if (shown ws u).card < 2 ^ 31 then .outOfBounds else .overflow) := by
      rw [hrun]
      change Except.bind (search (place []) (toBytes u ++ c :: v) m) _ = _
      rw [search_stray hm u hc v]
      rfl
    rw [InBounds, hend]
    by_cases hfew : (shown ws u).card < 2 ^ 31
    · rw [if_pos hfew]
      exact iff_of_false (fun h => h rfl) (fun h => hc (h u c v rfl hfew))
    · rw [if_neg hfew]
      refine iff_of_true nofun (fun u' c' v' h hfew' => ?_)
      by_contra hc'
      rw [stray_unique h hc hc'] at hfew
      exact hfew hfew'

theorem inBounds_iff (words : List (List UInt8)) (text : List UInt8) :
    InBounds A (entry words text) ↔ OverLetters words text := by
  rcases words_or_stray words with ⟨ws, rfl⟩ | ⟨ws, u, c, v, post, rfl, hc⟩
  · rw [entered_inBounds_iff]
    constructor
    · exact fun h => ⟨ws, rfl, h⟩
    · rintro ⟨ws', hws, h⟩
      rwa [List.map_injective_iff.mpr toBytes_injective hws]
  · refine iff_of_false (fun h => h ?_) ?_
    · rw [entry, List.map_append, List.map_map, List.map_cons, List.append_assoc, List.cons_append]
      exact session_stray hc v _
    · rintro ⟨ws', hws, -⟩
      have hmem : toBytes u ++ c :: v ∈ ws'.map toBytes := by
        rw [← hws]
        simp
      obtain ⟨w, -, hw⟩ := List.mem_map.mp hmem
      exact hc (isIndex_of_mem (u := w) (by rw [hw]; simp))

theorem overLetters_iff {words : List (List UInt8)} {text : List UInt8} (hfew : words.length < 2 ^ 31) :
    OverLetters words text ↔ (∀ w ∈ words, ∀ c ∈ w, IsIndex c) ∧ ∀ c ∈ text, IsIndex c := by
  constructor
  · rintro ⟨ws, rfl, h⟩
    refine ⟨fun w hw c hc => ?_, fun c hc => ?_⟩
    · obtain ⟨u, -, rfl⟩ := List.mem_map.mp hw
      exact isIndex_of_mem hc
    · rcases letters_or_stray text with ⟨t, rfl⟩ | ⟨u, c', v, rfl, hc'⟩
      · exact isIndex_of_mem hc
      · refine absurd (h u c' v rfl ?_) hc'
        have hshown : shown ws u ⊆ ws.toFinset := Finset.filter_subset _ _
        rw [List.length_map] at hfew
        exact ((Finset.card_le_card hshown).trans (List.toFinset_card_le ws)).trans_lt hfew
  · rintro ⟨hwords, htext⟩
    rcases words_or_stray words with ⟨ws, rfl⟩ | ⟨ws, u, c, v, post, rfl, hc⟩
    · exact ⟨ws, rfl, fun u c v h _ => htext c (by rw [h]; simp)⟩
    · exact absurd (hwords (toBytes u ++ c :: v) (by simp) c (by simp)) hc

/-- Calls in any order stay within next when all their bytes are indices. Where words are inserted, the failure
pointers built and a text searched, this is also necessary, up to the byte at which the count overflows. -/
theorem next_in_bounds (A : Allocator TrieNode) :
    (∀ calls, (∀ k ∈ calls, ∀ c ∈ k.bytes, IsIndex c) → InBounds A calls) ∧
    ∀ words text, (InBounds A (entry words text) ↔ OverLetters words text) ∧
      (words.length < 2 ^ 31 →
        (InBounds A (entry words text) ↔ (∀ w ∈ words, ∀ c ∈ w, IsIndex c) ∧ ∀ c ∈ text, IsIndex c)) := by
  refine ⟨fun calls h => inBounds_of_isIndex h, fun words text => ⟨inBounds_iff words text, fun hfew => ?_⟩⟩
  rw [inBounds_iff, overLetters_iff hfew]

/-- The words and the text of main. -/
theorem next_in_bounds_sher : InBounds bump (entry [[115, 104, 101], [104, 101]] [115, 104, 101, 114]) :=
  (((next_in_bounds bump).2 [[115, 104, 101], [104, 101]] [115, 104, 101, 114]).2 (by decide)).mpr
    (by simp [isIndex_iff])

/-- The first byte of a Chinese character in UTF-8 has the value -28, and the DEL character the value 127. -/
theorem stray_characters : charValue 228 = -28 ∧ ¬InBounds bump (entry [[228, 184, 173]] []) ∧
    charValue 127 = 127 ∧ ¬InBounds bump (entry [] [127]) := by
  refine ⟨rfl, ?_, rfl, ?_⟩
  · rw [inBounds_iff, overLetters_iff (by decide)]
    simp [isIndex_iff]
  · rw [inBounds_iff, overLetters_iff (by decide)]
    simp [isIndex_iff]

end StudyNotes.Automaton.Indices
