import StudyNotes.UvAsync.Handoff
import StudyNotes.Systems.Refinement
import StudyNotes.Systems.TestAndSet
import Mathlib.Algebra.BigOperators.Group.Finset.Basic
import Mathlib.Algebra.Order.BigOperators.Group.Finset

namespace StudyNotes.UvAsync.Spinning

open Systems.Transition Systems.Refinement Systems.TestAndSet Handoff

inductive LockState
  | locked
  | unlocked
deriving DecidableEq, Repr

/-- The class spinlock of the benchmark. -/
def spinlock : LockWord LockState := ⟨.locked, .unlocked, LockState.noConfusion⟩

/-- The enumerators are 0 and 1 in this order. -/
def LockState.toBool : LockState → Bool
  | .locked => false
  | .unlocked => true

/-- any::spin_lock keeps the enumerator in an atomic_bool. -/
def spinLock : LockWord Bool := ⟨LockState.toBool .locked, LockState.toBool .unlocked, Bool.noConfusion⟩

/-- A thread between lock and unlock: it has the lock, it has read global_vec, it
has written global_vec. -/
inductive Phase
  | outside
  | acquired
  | loaded (vec : List Int64)
  | stored
deriving DecidableEq, Repr

/-- The thread none is the loop thread. A producer moves on from ready and the loop
from entered when they write global_vec. -/
structure State (W ι : Type) where
  word : W
  phase : Option ι → Phase
  shared : Program.State ι

inductive Event (ι : Type)
  | exchange (t : Option ι)
  | load (t : Option ι)
  | store (t : Option ι)
  | unlock (t : Option ι)
  | other (e : Program.Event ι)

section Program

variable {W ι : Type} [DecidableEq W] [DecidableEq ι]

/-- The thread has called m_lock.lock(). -/
def AtLock (testCount : Nat) (s : Program.State ι) : Option ι → Prop
  | none => s.loop = .entered
  | some i => (s.producers i).k < testCount ∧ (s.producers i).point = .ready

/-- The thread has done what it took the lock for. -/
def Past (s : Program.State ι) : Option ι → Prop
  | none => ∃ tmpData, s.loop = .swapped tmpData
  | some i => (s.producers i).point = .unlocked

/-- The second half of swap and of push_back, by a thread that has read vec. -/
def write (s : Program.State ι) (vec : List Int64) : Option ι → Program.State ι
  | none => { s with globalVec := [], loop := .swapped vec }
  | some i =>
      { s with
        globalVec := vec ++ [Int64.ofNat (s.producers i).k]
        producers := Function.update s.producers i ⟨(s.producers i).k, .unlocked⟩ }

/-- The thread of an event that needs no lock. -/
def threadOf : Program.Event ι → Option (Option ι)
  | .push _ | .swap => none
  | .send i => some (some i)
  | .callback | .count | .finish => some none

/-- One step of some thread. The exchange writes Locked in any case, and the vector
is read in one step and written in another. -/
inductive Step (L : LockWord W) (testCount : Nat) : State W ι → Event ι → State W ι → Prop
  | exchange (s) (t : Option ι) (hp : s.phase t = .outside) (ht : AtLock testCount s.shared t) :
      Step L testCount s (.exchange t)
        { s with
          word := L.locked
          phase := Function.update s.phase t (if s.word = L.locked then .outside else .acquired) }
  | load (s) (t : Option ι) (hp : s.phase t = .acquired) :
      Step L testCount s (.load t) { s with phase := Function.update s.phase t (.loaded s.shared.globalVec) }
  | store (s) (t : Option ι) (vec : List Int64) (hp : s.phase t = .loaded vec) :
      Step L testCount s (.store t)
        { s with phase := Function.update s.phase t .stored, shared := write s.shared vec t }
  | unlock (s) (t : Option ι) (hp : s.phase t = .stored) :
      Step L testCount s (.unlock t) { s with word := L.unlocked, phase := Function.update s.phase t .outside }
  | other (s) (e : Program.Event ι) (t : Option ι) (s' : Program.State ι) (ht : threadOf e = some t)
      (hp : s.phase t = .outside) (hs : Program.Step testCount s.shared e s') :
      Step L testCount s (.other e) { s with shared := s' }

def system (L : LockWord W) (ι : Type) [DecidableEq ι] (testCount : Nat) : System (State W ι) (Event ι) where
  init s := s = ⟨L.unlocked, fun _ => .outside, Program.State.init ι⟩
  step := Step L testCount

end Program

/-- The event of the system in which a locked section is one step. -/
def seen {ι : Type} : Event ι → Option (Program.Event ι)
  | .store none => some .swap
  | .store (some i) => some (.push i)
  | .other e => some e
  | .exchange _ | .load _ | .unlock _ => none

section Exclusion

variable {W ι : Type} [DecidableEq W] [DecidableEq ι] {L : LockWord W} {testCount : Nat} {s s' : State W ι}

def Inside (s : State W ι) (t : Option ι) : Prop := s.phase t ≠ .outside

/-- One thread has the lock, what it has read is still the vector, and it moves on
when it writes. -/
structure Consistent (L : LockWord W) (testCount : Nat) (s : State W ι) : Prop where
  guarded : Guarded (s.word = L.locked) (Inside s)
  fresh : ∀ t vec, s.phase t = .loaded vec → vec = s.shared.globalVec
  waiting : ∀ t, s.phase t ≠ .outside → s.phase t ≠ .stored → AtLock testCount s.shared t
  past : ∀ t, s.phase t = .stored → Past s.shared t

/-- Only the thread of an event that needs no lock goes on. -/
theorem atLock_other {u u' : Program.State ι} {e : Program.Event ι} {t r : Option ι} (hs : Program.Step testCount u e u')
    (he : threadOf e = some t) (hr : r ≠ t) (h : AtLock testCount u r) : AtLock testCount u' r := by
  cases hs with
  | push | swap => cases he
  | send i =>
      cases he
      cases r with
      | none => exact h
      | some j =>
          have hj : j ≠ i := fun hj => hr (congrArg some hj)
          simpa only [AtLock, Function.update_of_ne hj] using h
  | callback | count | finish =>
      cases he
      cases r with
      | none => exact absurd rfl hr
      | some j => exact h

theorem past_other {u u' : Program.State ι} {e : Program.Event ι} {t r : Option ι} (hs : Program.Step testCount u e u')
    (he : threadOf e = some t) (hr : r ≠ t) (h : Past u r) : Past u' r := by
  cases hs with
  | push | swap => cases he
  | send i =>
      cases he
      cases r with
      | none => exact h
      | some j =>
          have hj : j ≠ i := fun hj => hr (congrArg some hj)
          simpa only [Past, Function.update_of_ne hj] using h
  | callback | count | finish =>
      cases he
      cases r with
      | none => exact absurd rfl hr
      | some j => exact h

theorem globalVec_other {u u' : Program.State ι} {e : Program.Event ι} {t : Option ι}
    (hs : Program.Step testCount u e u') (he : threadOf e = some t) : u'.globalVec = u.globalVec := by
  cases hs with
  | push | swap => cases he
  | send | callback | count | finish => rfl

omit [DecidableEq W] in
theorem inside_update (s : State W ι) (t : Option ι) (p : Phase) (w : W) (u : Program.State ι) (r : Option ι) :
    Inside ⟨w, Function.update s.phase t p, u⟩ r ↔ if r = t then p ≠ .outside else Inside s r := by
  by_cases hr : r = t
  · subst hr
    simp [Inside]
  · simp [Inside, hr]

omit [DecidableEq W] in
/-- A move of one thread that leaves the vector alone. -/
theorem Consistent.move (h : Consistent L testCount s) {t : Option ι} {p : Phase} {w : W}
    (hg : Guarded (w = L.locked) (Inside ⟨w, Function.update s.phase t p, s.shared⟩))
    (hfresh : ∀ vec, p = .loaded vec → vec = s.shared.globalVec)
    (hwait : p ≠ .outside → AtLock testCount s.shared t) (hp : p ≠ .stored) :
    Consistent L testCount ⟨w, Function.update s.phase t p, s.shared⟩ := by
  refine ⟨hg, fun r vec hr => ?_, fun r hr hr' => ?_, fun r hr => ?_⟩
  · by_cases hrt : r = t
    · subst hrt
      exact hfresh vec (by simpa using hr)
    · exact h.fresh r vec (by simpa [hrt] using hr)
  · by_cases hrt : r = t
    · subst hrt
      exact hwait (by simpa using hr)
    · exact h.waiting r (by simpa [hrt] using hr) (by simpa [hrt] using hr')
  · by_cases hrt : r = t
    · subst hrt
      exact absurd (by simpa using hr) hp
    · exact h.past r (by simpa [hrt] using hr)

theorem consistent_step {e : Event ι} (h : Consistent L testCount s) (hs : Step L testCount s e s') :
    Consistent L testCount s' := by
  cases hs with
  | exchange t hp ht =>
      by_cases hw : s.word = L.locked
      · -- busy waiting
        rw [if_pos hw]
        refine h.move (h.guarded.keep (by simp [hw]) (fun r => ?_)) (fun _ => nofun) (fun hne => absurd rfl hne) nofun
        rw [inside_update]
        by_cases hr : r = t <;> simp [hr, Inside, hp]
      · rw [if_neg hw]
        refine h.move (h.guarded.enter (t := t) hw rfl (fun r => ?_)) (fun _ => nofun) (fun _ => ht) nofun
        rw [inside_update]
        by_cases hr : r = t <;> simp [hr]
  | load t hp =>
      have hin : Inside s t := by simp [Inside, hp]
      refine h.move (h.guarded.keep Iff.rfl (fun r => ?_)) (fun vec hvec => ?_) (fun _ => ?_) nofun
      · rw [inside_update]
        by_cases hr : r = t <;> simp [hr, hin]
      · exact (Phase.loaded.inj hvec).symm
      · exact h.waiting t hin (by simp [hp])
  | store t vec hp =>
      have hin : Inside s t := by simp [Inside, hp]
      -- no other thread is inside, so nobody else has read the old vector
      have hphase (r : Option ι) : Function.update s.phase t .stored r = if r = t then .stored else .outside := by
        by_cases hr : r = t
        · subst hr
          simp
        · rw [Function.update_of_ne hr, if_neg hr]
          exact not_not.mp (h.guarded.others hin hr)
      refine ⟨h.guarded.keep Iff.rfl (fun r => ?_), fun r vec' hr => ?_, fun r hr hr' => ?_, fun r hr => ?_⟩
      · rw [inside_update]
        by_cases hr : r = t <;> simp [hr, hin]
      · simp only [hphase] at hr
        split_ifs at hr
      · simp only [hphase] at hr hr'
        split_ifs at hr hr' <;> contradiction
      · simp only [hphase] at hr
        split_ifs at hr with hrt
        subst hrt
        cases r with
        | none => exact ⟨vec, rfl⟩
        | some i => simp [Past, write]
  | unlock t hp =>
      have hin : Inside s t := by simp [Inside, hp]
      refine h.move (h.guarded.leave hin L.distinct (fun r => ?_)) (fun _ => nofun) (fun hne => absurd rfl hne) nofun
      rw [inside_update]
      by_cases hr : r = t <;> simp [hr]
  | other e t u ht hp hu =>
      have hne (r : Option ι) (hr : s.phase r ≠ .outside) : r ≠ t := by
        rintro rfl
        exact hr hp
      refine ⟨h.guarded.keep Iff.rfl (fun _ => Iff.rfl), fun r vec hr => ?_, fun r hr hr' => ?_, fun r hr => ?_⟩
      · rw [globalVec_other hu ht]
        exact h.fresh r vec hr
      · exact atLock_other hu ht (hne r hr) (h.waiting r hr hr')
      · exact past_other hu ht (hne r (by simp [show s.phase r = .stored from hr])) (h.past r hr)

omit [DecidableEq W] in
/-- What a thread that has the lock writes is what the locked section does in one step. -/
theorem write_step {t : Option ι} {vec : List Int64} (h : Consistent L testCount s) (hp : s.phase t = .loaded vec)
    {d : Program.Event ι} (hd : seen (.store t) = some d) :
    Program.Step testCount s.shared d (write s.shared vec t) := by
  have hat := h.waiting t (by simp [hp]) (by simp [hp])
  have hvec := h.fresh t vec hp
  cases t with
  | none =>
      cases hd
      rw [hvec]
      exact .swap _ hat
  | some i =>
      cases hd
      rw [hvec]
      exact .push _ i hat.1 hat.2

theorem simulates (L : LockWord W) (ι : Type) [DecidableEq ι] (testCount : Nat) :
    Simulates (system L ι testCount) (Program.system ι testCount) State.shared seen (Consistent L testCount) where
  init s hs := by
    cases hs
    exact ⟨⟨.start L.distinct (fun _ h => h rfl), fun _ _ h => Phase.noConfusion h, fun _ h => absurd rfl h,
      fun _ h => Phase.noConfusion h⟩, rfl⟩
  keep _ _ _ h hs := consistent_step h hs
  silent s e s' h hs he := by
    cases hs with
    | exchange | load | unlock => rfl
    | store t => cases t <;> cases he
    | other => cases he
  visible s e s' d h hs he := by
    cases hs with
    | exchange | load | unlock => cases he
    | store t vec hp => exact write_step h hp he
    | other e t u ht hp hu =>
        cases he
        exact hu

/-- Along every run no two threads are between lock and unlock, the vector that
one of them has read does not change under it, and the run is one of the system in
which a locked section is a single step. -/
theorem sections_exclude (L : LockWord W) (ι : Type) [DecidableEq ι] (testCount : Nat) (tr : List (State W ι × Event ι))
    (s : State W ι) (h : Run (system L ι testCount) tr s) :
    (∀ t u, Inside s t → Inside s u → t = u) ∧
    (∀ t vec, s.phase t = .loaded vec → vec = s.shared.globalVec) ∧
    Run (Program.system ι testCount) (shadow State.shared seen tr) s.shared := by
  have hc := (simulates L ι testCount).reachable h.reachable
  exact ⟨hc.guarded.alone, hc.fresh, (simulates L ι testCount).run h⟩

/-- A producer that holds the lock while the other one waits for it. -/
theorem sections_exclude_two : ∃ tr s, Run (system spinlock Bool 1) tr s ∧ Inside s (some true) ∧
    (∀ t u, Inside s t → Inside s u → t = u) ∧
    (∀ t vec, s.phase t = .loaded vec → vec = s.shared.globalVec) ∧
    Run (Program.system Bool 1) (shadow State.shared seen tr) s.shared := by
  have h₁ : Run (system spinlock Bool 1) _ _ := .next (.start rfl) (.exchange _ (some true) rfl ⟨by decide, rfl⟩)
  have h₂ : Run (system spinlock Bool 1) _ _ := .next h₁ (.exchange _ (some false) rfl ⟨by decide, rfl⟩)
  have h₃ : Run (system spinlock Bool 1) _ _ := .next h₂ (.load _ (some true) rfl)
  exact ⟨_, _, h₃, Phase.noConfusion, sections_exclude spinlock Bool 1 _ _ h₃⟩

end Exclusion

end StudyNotes.UvAsync.Spinning
