import StudyNotes.Radix.Runs

namespace StudyNotes.Radix.Erasing

open Heap.Program Heap.Triple Node Program KeyTree KeyTreeMultiset KeyTreeShape KeyTreeCount Context PlacedShape Refine
open Runs

/-- The answers of contains before and after a call of erase, and the answer of the call. -/
structure Answers where
  before : Bool
  removed : Bool
  after : Bool

/-- The three calls return, with these answers. -/
def Answers.Given (a : Answers) (A : Allocator Block) (t : RadixTree) (m : Mem Block) (k : Key) : Prop :=
  ∃ t' m₁ m' m₂, contains t k.buffer k.size m = .ok (a.before, m₁) ∧
    erase A t k.buffer k.size m = .ok ((a.removed, t'), m') ∧ contains t' k.buffer k.size m' = .ok (a.after, m₂)

/-- The call reports a removal if and only if the key was there and is there no more. -/
def KeepsPromise (A : Allocator Block) (t : RadixTree) (m : Mem Block) (k : Key) : Prop :=
  ∃ a : Answers, a.Given A t m k ∧ (a.removed = true ↔ a.before = true ∧ a.after = false)

theorem Answers.Given.unique {a b : Answers} {A : Allocator Block} {t : RadixTree} {m : Mem Block} {k : Key}
    (ha : a.Given A t m k) (hb : b.Given A t m k) : a = b := by
  obtain ⟨t', m₁, m', m₂, hbefore, herase, hafter⟩ := ha
  obtain ⟨u', n₁, n', n₂, hbefore', herase', hafter'⟩ := hb
  rw [hbefore, Except.ok.injEq, Prod.mk.injEq] at hbefore'
  rw [herase, Except.ok.injEq, Prod.mk.injEq, Prod.mk.injEq] at herase'
  obtain ⟨⟨hremoved, rfl⟩, rfl⟩ := herase'
  rw [hafter, Except.ok.injEq, Prod.mk.injEq] at hafter'
  rw [Answers.mk.injEq]
  exact ⟨hbefore'.1, hremoved, hafter'.1⟩

/-- What is left of the copies of an erased key. -/
theorem countOf_erased {ops : List Op} (h : ShortKeys ops) (k : Key) :
    (countOf k.bytes (abstractRun (ops ++ [.erase k])).tree).toNat = (countOf k.bytes (abstractRun ops).tree).toNat - 1 := by
  have hcanon := canon_run h
  rw [abstractRun_concat, Abstract.step]
  rcases erase_cases hcanon.root k with ⟨hzero, he⟩ | ⟨-, hr⟩
  · rw [he, hzero]
    rfl
  · have hkeys := congrArg (Multiset.count k.bytes) (keys_removes hr)
    rw [Multiset.count_cons_self, count_keys _ _ hcanon.shaped, count_keys _ _ (shaped_removes hr hcanon.shaped)] at hkeys
    change (countOf k.bytes (eraseKey k.bytes (abstractRun ops).tree)).toNat = _
    omega

/-- In every tree reached with short keys the three calls return: erase reports whether a copy was
there, and contains whether one is left. -/
theorem erase_answers (A : Allocator Block) {ops : List Op} (h : ShortKeys ops) (k : Key) :
    ∃ t m, run A ops emptyMem = .ok (t, m) ∧
      Answers.Given ⟨decide (countOf k.bytes (abstractRun ops).tree ≠ 0), decide (countOf k.bytes (abstractRun ops).tree ≠ 0),
        decide (countOf k.bytes (abstractRun (ops ++ [.erase k])).tree ≠ 0)⟩ A t m k := by
  obtain ⟨T, m, hrun, hT, hcanon, hm⟩ := run_reaches A h
  have hm0 : Holds (cells T + 0) m := by rwa [add_zero]
  have hshort : ShortKeys (ops ++ [.erase k]) := fun k' hk' => h k' (by simpa using hk')
  obtain ⟨b, m₁, hbefore, rfl, -⟩ :=
    (contains_refines (w := (abstractRun ops).size) hcanon k m hm0).exists_ok
  obtain ⟨r, m', herase, T', hT', rfl, -, hm'⟩ :=
    (erase_refines (A := A) (w := (abstractRun ops).size) hcanon k m hm0).exists_ok
  have htree : forget T' = (abstractRun (ops ++ [.erase k])).tree := by
    rw [hT', hT, abstractRun_concat]
    rfl
  have hcanon' : Canon Short T' := canon_of_forget (by rw [htree]; exact canon_run hshort)
  obtain ⟨b, m₂, hafter, rfl, -⟩ := (contains_refines hcanon' k m' hm').exists_ok
  rw [hT] at hbefore herase
  rw [htree] at hafter
  exact ⟨_, m, hrun, _, m₁, m', m₂, hbefore, herase, hafter⟩

theorem keepsPromise_iff (A : Allocator Block) {ops : List Op} (h : ShortKeys ops) (k : Key) :
    ∃ t m, run A ops emptyMem = .ok (t, m) ∧
      (KeepsPromise A t m k ↔ countOf k.bytes (abstractRun ops).tree ≤ 1) := by
  obtain ⟨t, m, hrun, hgiven⟩ := erase_answers A h k
  have hzero (c : UInt32) : c = 0 ↔ c.toNat = 0 := by rw [← UInt32.toNat_inj, UInt32.toNat_zero]
  have hleft := countOf_erased h k
  refine ⟨t, m, hrun, ?_⟩
  have hkeeps : KeepsPromise A t m k ↔ (countOf k.bytes (abstractRun ops).tree ≠ 0 ↔
      countOf k.bytes (abstractRun ops).tree ≠ 0 ∧ countOf k.bytes (abstractRun (ops ++ [.erase k])).tree = 0) := by
    constructor
    · rintro ⟨a, ha, hiff⟩
      obtain rfl := ha.unique hgiven
      simpa using hiff
    · intro hiff
      exact ⟨_, hgiven, by simpa using hiff⟩
  rw [hkeeps, UInt32.le_iff_toNat_le, UInt32.toNat_one, ne_eq, hzero, hzero]
  omega

/-- With short keys erase keeps its promise in a tree exactly for the keys with at most one copy,
as their reference counts have it. Until a reference count overflows this is the number of
copies that the calls have left. -/
theorem erase_promise_iff (A : Allocator Block) (ops : List Op) (h : ShortKeys ops) (k : Key) :
    ∃ t m, run A ops emptyMem = .ok (t, m) ∧
      (KeepsPromise A t m k ↔ countOf k.bytes (abstractRun ops).tree ≤ 1) ∧
      (Limits ops → (KeepsPromise A t m k ↔ (ledger ops).count k.bytes ≤ 1)) := by
  obtain ⟨t, m, hrun, hiff⟩ := keepsPromise_iff A h k
  refine ⟨t, m, hrun, hiff, fun hlimits => ?_⟩
  rw [hiff, ← (agrees_run hlimits).keys, count_keys _ _ (canon_run h).shaped, UInt32.le_iff_toNat_le]
  rfl

theorem letter_ne_nil : [(97 : UInt8)] ≠ [] := List.cons_ne_nil 97 []

theorem zero_notMem_letter : (0 : UInt8) ∉ [(97 : UInt8)] := by decide

def letter : Key := ⟨[97], letter_ne_nil, zero_notMem_letter⟩

theorem shortKeys_letter (n : Nat) : ShortKeys (List.replicate n (.insert letter)) := by
  intro k hk
  obtain rfl : k = letter := by simpa using List.eq_of_mem_replicate hk
  decide

theorem erase_promise_once : ∃ t m, run moving [.insert letter] emptyMem = .ok (t, m) ∧ KeepsPromise moving t m letter := by
  obtain ⟨t, m, hrun, hiff, -⟩ := erase_promise_iff moving [.insert letter] (shortKeys_letter 1) letter
  exact ⟨t, m, hrun, hiff.2 (by decide)⟩

/-- Of two copies one is left, and erase has reported the removal of the key. -/
theorem erase_promise_twice : ∃ t m, run moving [.insert letter, .insert letter] emptyMem = .ok (t, m) ∧
    Answers.Given ⟨true, true, true⟩ moving t m letter ∧ ¬KeepsPromise moving t m letter := by
  obtain ⟨t, m, hrun, hgiven⟩ := erase_answers moving (shortKeys_letter 2) letter
  refine ⟨t, m, hrun, hgiven, ?_⟩
  rintro ⟨a, ha, hiff⟩
  obtain rfl := ha.unique hgiven
  revert hiff
  decide

end StudyNotes.Radix.Erasing
