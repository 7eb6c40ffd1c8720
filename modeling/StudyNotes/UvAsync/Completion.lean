import StudyNotes.UvAsync.Spinning
import Mathlib.Algebra.BigOperators.Option
import Mathlib.Algebra.Order.BigOperators.Group.Finset
import Mathlib.Data.Fintype.Option
import Mathlib.Data.Fintype.BigOperators

namespace StudyNotes.UvAsync.Completion

open Systems.Transition Systems.Refinement Systems.TestAndSet Handoff Spinning

section Counting

variable {ι : Type} [DecidableEq ι] {testCount : Nat}

/-- The calls of push_back that a producer has made. -/
def items (p : Program.Producer) : Nat := if p.point = .unlocked then p.k + 1 else p.k

/-- A producer stays within its loop, and every item comes from a producer. -/
structure Produced [Fintype ι] (testCount : Nat) (tr : List (Program.State ι × Program.Event ι)) (s : Program.State ι) :
    Prop where
  bound : ∀ i, items (s.producers i) ≤ testCount
  total : pushes tr = ∑ i, items (s.producers i)

/-- A producer takes n more items. -/
theorem sum_items [Fintype ι] (ps : ι → Program.Producer) (i : ι) (p : Program.Producer) (n : Nat)
    (h : items p = items (ps i) + n) : ∑ j, items (Function.update ps i p j) = ∑ j, items (ps j) + n := by
  have hsplit (f : ι → Program.Producer) : ∑ j, items (f j) = items (f i) + ∑ j ∈ Finset.univ.erase i, items (f j) :=
    (Finset.add_sum_erase _ _ (Finset.mem_univ i)).symm
  have hrest : ∑ j ∈ Finset.univ.erase i, items (Function.update ps i p j) =
      ∑ j ∈ Finset.univ.erase i, items (ps j) :=
    Finset.sum_congr rfl fun j hj => by rw [Function.update_of_ne (Finset.ne_of_mem_erase hj)]
  rw [hsplit, hsplit ps, hrest, Function.update_self]
  omega

theorem produced_step [Fintype ι] {tr : List (Program.State ι × Program.Event ι)} {s s' : Program.State ι}
    {e : Program.Event ι} (h : Produced testCount tr s) (hs : Program.Step testCount s e s') :
    Produced testCount (tr ++ [(s, e)]) s' := by
  have hbound {i : ι} {p : Program.Producer} (hp : items p ≤ testCount) (j : ι) :
      items (Function.update s.producers i p j) ≤ testCount := by
    by_cases hj : j = i
    · subst hj
      simpa using hp
    · simpa [hj] using h.bound j
  cases hs with
  | push i hk hp =>
      refine ⟨hbound (Nat.succ_le_of_lt hk), ?_⟩
      rw [pushes_concat, h.total]
      exact (sum_items _ i _ 1 (by simp [items, hp])).symm
  | send i hp =>
      have hi := h.bound i
      simp only [items, hp, if_true] at hi
      refine ⟨hbound (by simpa [items] using hi), ?_⟩
      rw [pushes_concat, h.total]
      exact (sum_items _ i _ 0 (by simp [items, hp])).symm
  | callback | swap | count | finish =>
      refine ⟨h.bound, ?_⟩
      rw [pushes_concat, h.total]
      rfl

theorem produced_run [Fintype ι] {tr : List (Program.State ι × Program.Event ι)} {s : Program.State ι}
    (h : Run (Program.system ι testCount) tr s) : Produced testCount tr s := by
  refine Run.induct ?_ (fun tr s e s' _ hI hs => produced_step hI hs) h
  rintro s rfl
  exact ⟨fun _ => Nat.zero_le _, by simp [pushes, items, Program.State.init]⟩

end Counting

section Progress

variable {W ι : Type} [DecidableEq W] [DecidableEq ι] [Fintype ι] {L : LockWord W} {testCount : Nat} {s s' : State W ι}

/-- All producers have left their loop, and no callback is pending or running. -/
structure Done (testCount : Nat) (s : State W ι) : Prop where
  producers : ∀ i, s.shared.producers i = ⟨testCount, .ready⟩
  pending : s.shared.pending = false
  loop : s.shared.loop = .idle

/-- What is left to do for a thread, with room for the callback that a send causes. -/
def remaining (testCount : Nat) (s : State W ι) : Option ι → Nat
  | none =>
      match s.shared.loop, s.phase none with
      | .idle, _ => 0
      | .counted _, _ => 1
      | .swapped _, .stored => 3
      | .swapped _, _ => 2
      | .entered, .loaded _ => 4
      | .entered, .acquired => 5
      | .entered, _ => 6
  | some i =>
      13 * (testCount - (s.shared.producers i).k) +
        match (s.shared.producers i).point, s.phase (some i) with
        | .ready, .loaded _ => 2
        | .ready, .acquired => 3
        | .ready, _ => 4
        | .unlocked, .stored => 1
        | .unlocked, _ => 0

def waiting (s : State W ι) : Nat := if s.shared.pending then 8 else 0

def work (testCount : Nat) (s : State W ι) : Nat := waiting s + ∑ t, remaining testCount s t

omit [DecidableEq W] in
theorem work_lt (t : Option ι) (hothers : ∀ r, r ≠ t → remaining testCount s' r = remaining testCount s r)
    (ht : waiting s' + remaining testCount s' t < waiting s + remaining testCount s t) :
    work testCount s' < work testCount s := by
  have hsplit (u : State W ι) : ∑ r, remaining testCount u r =
      remaining testCount u t + ∑ r ∈ Finset.univ.erase t, remaining testCount u r :=
    (Finset.add_sum_erase _ _ (Finset.mem_univ t)).symm
  have hrest : ∑ r ∈ Finset.univ.erase t, remaining testCount s' r =
      ∑ r ∈ Finset.univ.erase t, remaining testCount s r :=
    Finset.sum_congr rfl fun r hr => hothers r (Finset.ne_of_mem_erase hr)
  rw [work, work, hsplit, hsplit s, hrest]
  omega

omit [DecidableEq W] [DecidableEq ι] [Fintype ι] in
theorem remaining_congr {r : Option ι} (hphase : s'.phase r = s.phase r)
    (hloop : r = none → s'.shared.loop = s.shared.loop)
    (hprod : ∀ i, r = some i → s'.shared.producers i = s.shared.producers i) :
    remaining testCount s' r = remaining testCount s r := by
  cases r with
  | none => rw [remaining, remaining, hphase, hloop rfl]
  | some i => rw [remaining, remaining, hphase, hprod i rfl]

/-- A thread that has the lock can go on. -/
theorem step_inside (h : Consistent L testCount s) {t : Option ι} (ht : Inside s t) :
    ∃ e s', Step L testCount s e s' ∧ work testCount s' < work testCount s := by
  cases hphase : s.phase t with
  | outside => exact absurd hphase ht
  | acquired =>
      have hat := h.waiting t ht (by simp [hphase])
      refine ⟨_, _, .load s t hphase, work_lt t (fun r hr => ?_) ?_⟩
      · exact remaining_congr (by simp [hr]) (fun _ => rfl) (fun _ _ => rfl)
      · cases t with
        | none => simp [waiting, remaining, hphase, show s.shared.loop = .entered from hat]
        | some i => simp [waiting, remaining, hphase, hat.2]
  | loaded vec =>
      have hat := h.waiting t ht (by simp [hphase])
      refine ⟨_, _, .store s t vec hphase, work_lt t (fun r hr => ?_) ?_⟩
      · refine remaining_congr (by simp [hr]) (fun hnone => ?_) (fun j hj => ?_)
        · cases t with
          | none => exact absurd hnone hr
          | some i => rfl
        · cases t with
          | none => rfl
          | some i =>
              have hji : j ≠ i := fun hji => hr (by rw [hj, hji])
              simp [write, hji]
      · have hwait : waiting (⟨s.word, Function.update s.phase t .stored, write s.shared vec t⟩ : State W ι) = waiting s := by
          cases t <;> rfl
        rw [hwait]
        cases t with
        | none => simp [remaining, write, hphase, show s.shared.loop = .entered from hat]
        | some i => simp [remaining, write, hphase, hat.2]
  | stored =>
      have hpast := h.past t hphase
      refine ⟨_, _, .unlock s t hphase, work_lt t (fun r hr => ?_) ?_⟩
      · exact remaining_congr (by simp [hr]) (fun _ => rfl) (fun _ _ => rfl)
      · cases t with
        | none =>
            obtain ⟨tmp, hloop⟩ := hpast
            simp [waiting, remaining, hphase, hloop]
        | some i => simp [waiting, remaining, hphase, show (s.shared.producers i).point = .unlocked from hpast]

/-- If the lock is free, a thread that waits for it gets it. -/
theorem step_exchange {t : Option ι} (hword : s.word ≠ L.locked) (hp : s.phase t = .outside)
    (ht : AtLock testCount s.shared t) : ∃ e s', Step L testCount s e s' ∧ work testCount s' < work testCount s := by
  refine ⟨_, _, .exchange s t hp ht, work_lt t (fun r hr => ?_) ?_⟩
  · exact remaining_congr (by simp [hr]) (fun _ => rfl) (fun _ _ => rfl)
  · cases t with
    | none => simp [waiting, remaining, hp, hword, show s.shared.loop = .entered from ht]
    | some i => simp [waiting, remaining, hp, hword, ht.2]

theorem step_send {i : ι} (hp : s.phase (some i) = .outside) (hpoint : (s.shared.producers i).point = .unlocked)
    (hk : (s.shared.producers i).k < testCount) :
    ∃ e s', Step L testCount s e s' ∧ work testCount s' < work testCount s := by
  refine ⟨_, _, .other s (.send i) (some i) _ rfl hp (.send _ i hpoint), work_lt (some i) (fun r hr => ?_) ?_⟩
  · refine remaining_congr rfl (fun _ => rfl) (fun j hj => ?_)
    have hji : j ≠ i := fun hji => hr (by rw [hj, hji])
    simp [hji]
  · simp only [waiting, remaining, hp, hpoint, Function.update_self, if_true]
    omega

/-- With the lock free and all producers done the callback can go on. -/
theorem step_loop (hword : s.word ≠ L.locked) (hp : s.phase none = .outside)
    (hbusy : s.shared.loop ≠ .idle ∨ s.shared.pending = true) :
    ∃ e s', Step L testCount s e s' ∧ work testCount s' < work testCount s := by
  have hothers {u : Program.State ι} (hu : u.producers = s.shared.producers) (r : Option ι) (hr : r ≠ none) :
      remaining testCount { s with shared := u } r = remaining testCount s r :=
    remaining_congr rfl (fun h => absurd h hr) (fun i _ => by rw [hu])
  cases hloop : s.shared.loop with
  | idle =>
      have hpend : s.shared.pending = true := hbusy.resolve_left (fun h => h hloop)
      refine ⟨_, _, .other s .callback none _ rfl hp (.callback _ hpend hloop), work_lt none (hothers rfl) ?_⟩
      simp [waiting, remaining, hp, hpend, hloop]
  | entered => exact step_exchange hword hp hloop
  | swapped tmp =>
      refine ⟨_, _, .other s .count none _ rfl hp (.count _ tmp hloop), work_lt none (hothers rfl) ?_⟩
      simp [waiting, remaining, hp, hloop]
  | counted tmp =>
      refine ⟨_, _, .other s .finish none _ rfl hp (.finish _ tmp hloop), work_lt none (hothers rfl) ?_⟩
      simp [waiting, remaining, hloop]

theorem exists_step (hr : Reachable (system L ι testCount) s) (hd : ¬Done testCount s) :
    ∃ e s', Step L testCount s e s' ∧ work testCount s' < work testCount s := by
  have hc := (simulates L ι testCount).reachable hr
  by_cases hin : ∃ t, Inside s t
  · obtain ⟨t, ht⟩ := hin
    exact step_inside hc ht
  · have hout (t : Option ι) : s.phase t = .outside := not_not.mp fun ht => hin ⟨t, ht⟩
    have hword : s.word ≠ L.locked := fun hw => hin (hc.guarded.taken_iff.mp hw)
    obtain ⟨tr, hrun⟩ := hr
    have hbound := (produced_run ((simulates L ι testCount).run hrun)).bound
    by_cases hprod : ∀ i, s.shared.producers i = ⟨testCount, .ready⟩
    · refine step_loop hword (hout none) ?_
      by_contra hq
      push Not at hq
      exact hd ⟨hprod, by simpa using hq.2, hq.1⟩
    · obtain ⟨i, hi⟩ := not_forall.mp hprod
      have hb := hbound i
      cases hpoint : (s.shared.producers i).point with
      | ready =>
          have hne : (s.shared.producers i).k ≠ testCount := fun hk => hi (by rw [← hk, ← hpoint])
          rw [items, if_neg (by simp [hpoint])] at hb
          exact step_exchange (t := some i) hword (hout _) ⟨by omega, hpoint⟩
      | unlocked =>
          rw [items, if_pos hpoint] at hb
          exact step_send (hout _) hpoint hb

/-- Every run can be completed: no interleaving leads to a state from which the
threads cannot finish. When they have, every item has been counted. -/
theorem spinning_completes (L : LockWord W) (ι : Type) [DecidableEq ι] [Fintype ι] (testCount : Nat)
    (tr : List (State W ι × Event ι)) (s : State W ι) (h : Run (system L ι testCount) tr s) :
    (∃ tr' s', Run (system L ι testCount) (tr ++ tr') s' ∧ Done testCount s') ∧
    (Done testCount s → s.word ≠ L.locked ∧ s.shared.globalVec = [] ∧
      s.shared.totalConsumer = Int64.ofNat (Fintype.card ι * testCount)) := by
  have hstep (s : State W ι) (hr : Reachable (system L ι testCount) s) (_ : True) (hd : ¬Done testCount s) :
      ∃ e s', Step L testCount s e s' ∧ True ∧ True ∧ work testCount s' < work testCount s := by
    obtain ⟨e, s', hs, hlt⟩ := exists_step hr hd
    exact ⟨e, s', hs, trivial, trivial, hlt⟩
  obtain ⟨tr', s', hr', -, hd', -⟩ := exists_goal (P := fun _ => True) (work testCount) hstep h trivial
  refine ⟨⟨tr', s', hr', hd'⟩, fun hd => ?_⟩
  have hc := (simulates L ι testCount).reachable h.reachable
  have hrun := (simulates L ι testCount).run h
  have hbalanced := balanced_run hrun
  have hpoint (i : ι) : (s.shared.producers i).point = .ready := by rw [hd.producers i]
  have hempty : s.shared.globalVec = [] := by
    by_contra hne
    rcases hbalanced.wake hne with hp | hl | ⟨i, hi⟩
    · simp [hd.pending] at hp
    · simp [hd.loop] at hl
    · simp [hpoint i] at hi
  have hpushes : pushes (shadow State.shared seen tr) = Fintype.card ι * testCount := by
    rw [(produced_run hrun).total]
    simp [hd.producers, items]
  refine ⟨fun hw => ?_, hempty, ?_⟩
  · obtain ⟨t, ht⟩ := hc.guarded.taken_iff.mp hw
    cases hphase : s.phase t with
    | outside => exact ht hphase
    | acquired | loaded =>
        have hat := hc.waiting t ht (by simp [hphase])
        cases t with
        | none => simp [AtLock, hd.loop] at hat
        | some i => simp [AtLock, hd.producers] at hat
    | stored =>
        have hpast := hc.past t hphase
        cases t with
        | none => simp [Past, hd.loop] at hpast
        | some i => simp [Past, hd.producers] at hpast
  · have htotal := hbalanced.total
    rw [hempty, hd.loop, hpushes] at htotal
    simpa [Loop.uncounted] using htotal

theorem spinning_completes_start : ∃ tr s, Run (system spinLock (Fin 2) 3) tr s ∧ Done 3 s ∧
    s.shared.totalConsumer = 6 := by
  obtain ⟨⟨tr, s, h, hd⟩, -⟩ := spinning_completes spinLock (Fin 2) 3 [] _ (.start rfl)
  exact ⟨tr, s, h, hd, ((spinning_completes spinLock (Fin 2) 3 tr s h).2 hd).2.2⟩

end Progress

end StudyNotes.UvAsync.Completion
