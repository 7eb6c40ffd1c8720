import StudyNotes.UvAsync.Program
import Mathlib.Data.List.FinRange
import Mathlib.Algebra.Group.Nat.Defs

namespace StudyNotes.UvAsync.Handoff

open Systems.Transition Program

variable {ι : Type} [DecidableEq ι] {testCount : Nat}

def Loop.tmpData : Loop → List Int64
  | .idle | .entered => []
  | .swapped tmp | .counted tmp => tmp

/-- The items that the running callback has taken and not yet counted. -/
def Loop.uncounted : Loop → List Int64
  | .swapped tmp => tmp
  | .idle | .entered | .counted _ => []

def Event.isPush : Event ι → Bool
  | .push _ => true
  | _ => false

/-- The number of calls of push_back in a run. -/
def pushes (tr : List (State ι × Event ι)) : Nat := tr.countP (fun p => Event.isPush p.2)

/-- No producer has still to send, and no callback is pending or running. -/
def Quiet (s : State ι) : Prop :=
  (∀ i, (s.producers i).point ≠ .unlocked) ∧ s.pending = false ∧ s.loop = .idle

omit [DecidableEq ι] in
theorem pushes_concat (tr : List (State ι × Event ι)) (s : State ι) (e : Event ι) :
    pushes (tr ++ [(s, e)]) = pushes tr + (Event.isPush e).toNat := by
  rw [pushes, List.countP_append, pushes]
  cases he : Event.isPush e <;> simp [he]

/-- Nothing is lost, and whenever items wait, somebody is still to wake the loop. -/
structure Balanced (tr : List (State ι × Event ι)) (s : State ι) : Prop where
  total : s.totalConsumer + Int64.ofNat s.globalVec.length + Int64.ofNat (Loop.uncounted s.loop).length =
    Int64.ofNat (pushes tr)
  wake : s.globalVec ≠ [] → s.pending = true ∨ s.loop = .entered ∨ ∃ i, (s.producers i).point = .unlocked

theorem balanced_step {tr : List (State ι × Event ι)} {s s' : State ι} {e : Event ι} (h : Balanced tr s)
    (hs : Step testCount s e s') : Balanced (tr ++ [(s, e)]) s' := by
  have htotal := h.total
  constructor
  case total =>
    rw [pushes_concat]
    cases hs with
    | push i hk hp =>
        simp only [List.length_append, List.length_singleton, Event.isPush, Bool.toNat_true, Int64.ofNat_add, ← htotal]
        ac_rfl
    | send i hp => simpa [Event.isPush] using htotal
    | callback hp hl =>
        rw [hl] at htotal
        simpa [Event.isPush, Loop.uncounted] using htotal
    | swap hl =>
        rw [hl] at htotal
        simpa [Event.isPush, Loop.uncounted] using htotal
    | count tmp hl =>
        rw [hl] at htotal
        simp only [Loop.uncounted, List.length_nil, Event.isPush, Bool.toNat_false, Nat.add_zero, ← htotal]
        have hzero : Int64.ofNat 0 = 0 := rfl
        rw [hzero, Int64.add_zero]
        ac_rfl
    | finish tmp hl =>
        rw [hl] at htotal
        simpa [Event.isPush, Loop.uncounted] using htotal
  case wake =>
    intro hne
    cases hs with
    | push i hk hp => exact Or.inr (Or.inr ⟨i, by simp⟩)
    | send i hp => exact Or.inl rfl
    | callback hp hl => exact Or.inr (Or.inl rfl)
    | swap hl => exact absurd rfl hne
    | count tmp hl =>
        rcases h.wake hne with hpend | hent | hprod
        · exact Or.inl hpend
        · rw [hl] at hent
          cases hent
        · exact Or.inr (Or.inr hprod)
    | finish tmp hl =>
        rcases h.wake hne with hpend | hent | hprod
        · exact Or.inl hpend
        · rw [hl] at hent
          cases hent
        · exact Or.inr (Or.inr hprod)

theorem balanced_run {tr : List (State ι × Event ι)} {s : State ι} (h : Run (system ι testCount) tr s) :
    Balanced tr s := by
  refine Run.induct ?_ (fun tr s e s' _ hI hs => balanced_step hI hs) h
  rintro s rfl
  exact ⟨rfl, fun hne => absurd rfl hne⟩

section Rounds

variable {tr : List (State ι × Event ι)} {s : State ι}

/-- From a quiet state a producer can hand over one more item. -/
theorem run_round (h : Run (system ι testCount) tr s) (hq : Quiet s) {i : ι} {k : Nat}
    (hi : s.producers i = ⟨k, .ready⟩) (hk : k < testCount) :
    ∃ tr' s', Run (system ι testCount) tr' s' ∧ Quiet s' ∧ pushes tr' = pushes tr + 1 ∧
      s'.producers = Function.update s.producers i ⟨k + 1, .ready⟩ := by
  obtain ⟨hprod, hpend, hloop⟩ := hq
  have h₁ : Run (system ι testCount) _ _ := .next h (.push s i (by rw [hi]; exact hk) (by rw [hi]))
  have h₂ : Run (system ι testCount) _ _ := .next h₁ (.send _ i (by simp))
  have h₃ : Run (system ι testCount) _ _ := .next h₂ (.callback _ rfl hloop)
  have h₄ : Run (system ι testCount) _ _ := .next h₃ (.swap _ rfl)
  have h₅ : Run (system ι testCount) _ _ := .next h₄ (.count _ _ rfl)
  refine ⟨_, _, .next h₅ (.finish _ _ rfl), ⟨fun j => ?_, rfl, rfl⟩, ?_, ?_⟩
  · by_cases hj : j = i
    · subst hj
      simp
    · simpa [Function.update_of_ne hj] using hprod j
  · simp only [pushes_concat, Event.isPush, Bool.toNat_true, Bool.toNat_false]
  · simp [hi]

theorem run_rounds (h : Run (system ι testCount) tr s) (hq : Quiet s) {i : ι} (hi : s.producers i = ⟨0, .ready⟩)
    (n : Nat) (hn : n ≤ testCount) :
    ∃ tr' s', Run (system ι testCount) tr' s' ∧ Quiet s' ∧ pushes tr' = pushes tr + n ∧
      s'.producers = Function.update s.producers i ⟨n, .ready⟩ := by
  induction n with
  | zero => exact ⟨tr, s, h, hq, rfl, by rw [← hi, Function.update_eq_self]⟩
  | succ n ih =>
      obtain ⟨tr', s', h', hq', hpush, hprod⟩ := ih (by omega)
      obtain ⟨tr'', s'', h'', hq'', hpush', hprod'⟩ := run_round h' hq' (by rw [hprod, Function.update_self]) hn
      refine ⟨tr'', s'', h'', hq'', by omega, ?_⟩
      rw [hprod', hprod, Function.update_idem]

/-- Several producers can do all their rounds one after another. -/
theorem run_producers (l : List ι) (hl : l.Nodup) (h : Run (system ι testCount) tr s) (hq : Quiet s)
    (hfresh : ∀ i ∈ l, s.producers i = ⟨0, .ready⟩) :
    ∃ tr' s', Run (system ι testCount) tr' s' ∧ Quiet s' ∧ pushes tr' = pushes tr + l.length * testCount := by
  induction l generalizing tr s with
  | nil => exact ⟨tr, s, h, hq, by simp⟩
  | cons i l ih =>
      obtain ⟨hi, hl⟩ := List.nodup_cons.mp hl
      obtain ⟨tr', s', h', hq', hpush, hprod⟩ := run_rounds h hq (hfresh i (by simp)) testCount (Nat.le_refl _)
      have hrest : ∀ j ∈ l, s'.producers j = ⟨0, .ready⟩ := by
        intro j hj
        rw [hprod, Function.update_of_ne (ne_of_mem_of_not_mem hj hi)]
        exact hfresh j (List.mem_cons_of_mem _ hj)
      obtain ⟨tr'', s'', h'', hq'', hpush'⟩ := ih hl h' hq' hrest
      refine ⟨tr'', s'', h'', hq'', ?_⟩
      rw [hpush', hpush, List.length_cons, Nat.succ_mul]
      omega

end Rounds

theorem run_full (n testCount : Nat) : ∃ tr s, Run (system (Fin n) testCount) tr s ∧ Quiet s ∧
    pushes tr = n * testCount := by
  have hstart : Quiet (State.init (Fin n)) := ⟨fun _ h => (nomatch h), rfl, rfl⟩
  obtain ⟨tr, s, h, hq, hpush⟩ :=
    run_producers (List.finRange n) (List.nodup_finRange n) (.start rfl) hstart (fun _ _ => rfl)
  refine ⟨tr, s, h, hq, ?_⟩
  rw [hpush, List.length_finRange]
  exact Nat.zero_add _

/-- Along every run the items counted, waiting and taken add up to the items
pushed, as 64-bit numbers, and in a quiet state all of them have been counted. -/
theorem all_consumed (ι : Type) [DecidableEq ι] (testCount : Nat) (tr : List (State ι × Event ι)) (s : State ι)
    (h : Run (system ι testCount) tr s) :
    s.totalConsumer + Int64.ofNat s.globalVec.length + Int64.ofNat (Loop.uncounted s.loop).length =
      Int64.ofNat (pushes tr) ∧
    (Quiet s → s.globalVec = [] ∧ s.totalConsumer = Int64.ofNat (pushes tr)) := by
  have hb := balanced_run h
  refine ⟨hb.total, ?_⟩
  rintro ⟨hprod, hpend, hloop⟩
  have hempty : s.globalVec = [] := by
    by_contra hne
    rcases hb.wake hne with hp | hl | ⟨i, hi⟩
    · rw [hpend] at hp
      cases hp
    · rw [hloop] at hl
      cases hl
    · exact hprod i hi
  have htotal := hb.total
  rw [hempty, hloop] at htotal
  refine ⟨hempty, ?_⟩
  simpa [Loop.uncounted] using htotal

/-- Two producers of three items each. -/
theorem all_consumed_pair : ∃ tr s, Run (system (Fin 2) 3) tr s ∧ Quiet s ∧ pushes tr = 6 ∧
    s.globalVec = [] ∧ s.totalConsumer = 6 := by
  obtain ⟨tr, s, h, hq, hpush⟩ := run_full 2 3
  have hconsumed := (all_consumed (Fin 2) 3 tr s h).2 hq
  rw [hpush] at hconsumed
  exact ⟨tr, s, h, hq, hpush, hconsumed⟩

/-- One item pushed, announced and taken by the callback. -/
theorem run_taken : ∃ tr s, Run (system Unit 1) tr s ∧ s.loop = .swapped [0] ∧ s.totalConsumer = 0 ∧
    s.globalVec = [] ∧ pushes tr = 1 := by
  have h₁ : Run (system Unit 1) _ _ := .next (.start rfl) (.push _ () (by decide) rfl)
  have h₂ : Run (system Unit 1) _ _ := .next h₁ (.send _ () rfl)
  have h₃ : Run (system Unit 1) _ _ := .next h₂ (.callback _ rfl rfl)
  exact ⟨_, _, .next h₃ (.swap _ rfl), rfl, rfl, rfl, rfl⟩

/-- Items that are counted are still in tmp_data until the callback returns, and
after 2 ^ 63 of them the 64-bit total is no longer their number. -/
theorem counted_twice :
    (∃ tr s, Run (system Unit 1) tr s ∧ pushes tr = 1 ∧
      s.totalConsumer + Int64.ofNat s.globalVec.length + Int64.ofNat (Loop.tmpData s.loop).length = 2) ∧
    ∃ tr s, Run (system (Fin (2 ^ 33)) (2 ^ 31 - 1)) tr s ∧ Quiet s ∧ s.totalConsumer.toInt ≠ pushes tr := by
  constructor
  · obtain ⟨tr, s, h, hloop, htotal, hvec, hpush⟩ := run_taken
    refine ⟨_, _, .next h (.count s [0] hloop), ?_, ?_⟩
    · rw [pushes_concat, hpush]
      rfl
    · simp only [htotal, hvec, Loop.tmpData]
      rfl
  · obtain ⟨tr, s, h, hq, hpush⟩ := run_full (2 ^ 33) (2 ^ 31 - 1)
    refine ⟨tr, s, h, hq, fun heq => ?_⟩
    have hlt := s.totalConsumer.toInt_lt
    omega

end StudyNotes.UvAsync.Handoff
