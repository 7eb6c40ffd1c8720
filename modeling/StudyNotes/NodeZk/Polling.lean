import StudyNotes.Heap.Outcome
import StudyNotes.NodeZk.Program
import Mathlib.Algebra.Order.Group.Multiset

namespace StudyNotes.NodeZk.Polling

open Heap.Program Heap.Triple Heap.Outcome Program

def handleCells (a : Addr) : Option Poll → Multiset (Addr × Poll)
  | none => 0
  | some p => {(a, p)}

/-- The memory has the handle of the object, if there is one, and the old handles whose
callbacks are still to come. -/
structure Handles (poll : Option Poll) (old : Multiset (Addr × Poll)) (polls : Polls) : Prop where
  mem : Holds (handleCells polls.zkIoPollHdl poll + old) polls.mem
  closing : ↑polls.closing = old.map Prod.fst
  null : polls.zkIoPollHdl = 0 ↔ poll = none
  quiet : ∀ x ∈ old, x.2.events = none

variable {A : Allocator Poll} {poll : Option Poll} {p : Poll} {old : Multiset (Addr × Poll)} {polls : Polls}

theorem handles_empty : Handles none 0 ⟨emptyMem, 0, []⟩ := ⟨holds_empty, rfl, iff_of_true rfl rfl, by simp⟩

theorem Handles.cells (h : Handles (some p) old polls) : Holds ((polls.zkIoPollHdl, p) ::ₘ old) polls.mem := by
  have hm := h.mem
  rwa [handleCells, Multiset.singleton_add] at hm

theorem Handles.ne_null (h : Handles (some p) old polls) : polls.zkIoPollHdl ≠ 0 := fun h0 => by simpa using h.null.mp h0

theorem Handles.eq_null (h : Handles none old polls) : polls.zkIoPollHdl = 0 := h.null.mpr rfl

theorem onMem_succeeds {α : Type} {S : Multiset (Addr × Poll)} {x : HeapM Poll α} {Q : α → Mem Poll → Prop}
    (h : Spec (Holds S) x Q (fun _ => False)) (hm : Holds S polls.mem) :
    Succeeds (onMem polls x) (fun r => ∃ m, r.2 = { polls with mem := m } ∧ Q r.1 m) :=
  (Spec.succeeds h hm).bind fun r hr => succeeds_ok ⟨r.2, rfl, hr⟩

/-- An operation that rewrites the handle of the object. -/
theorem rewrite_succeeds {x : HeapM Poll Unit} {q : Poll} (h : Handles (some p) old polls)
    (hx : ∀ S, Spec (Holds ((polls.zkIoPollHdl, p) ::ₘ S)) x (fun _ => Holds ((polls.zkIoPollHdl, q) ::ₘ S)) (fun _ => False)) :
    Succeeds (onMem polls x) (fun r => Handles (some q) old r.2) := by
  refine (onMem_succeeds (hx _) h.cells).mono fun r hr => ?_
  obtain ⟨m, hpolls, hm⟩ := hr
  rw [hpolls]
  refine ⟨?_, h.closing, iff_of_false h.ne_null (by simp), h.quiet⟩
  rwa [handleCells, Multiset.singleton_add]

theorem spec_uvPollStop {a : Addr} {S : Multiset (Addr × Poll)} :
    Spec (Holds ((a, p) ::ₘ S)) (uvPollStop a) (fun _ => Holds ((a, { p with events := none }) ::ₘ S)) (fun _ => False) := by
  rw [uvPollStop]
  refine spec_load_bind (Multiset.mem_cons_self _ _) ?_
  rw [← bind_pure (store _ _)]
  exact spec_store_bind (spec_pure fun _ hm => hm)

theorem spec_uvPollStart {a : Addr} {S : Multiset (Addr × Poll)} (events : Nat) (hp : p.closing = false) :
    Spec (Holds ((a, p) ::ₘ S)) (uvPollStart a events) (fun _ => Holds ((a, { p with events := some events }) ::ₘ S))
      (fun _ => False) := by
  rw [uvPollStart]
  refine spec_load_bind (Multiset.mem_cons_self _ _) (spec_assert_bind hp ?_)
  rw [← bind_pure (store _ _)]
  exact spec_store_bind (spec_pure fun _ hm => hm)

theorem spec_uvClose {a : Addr} {S : Multiset (Addr × Poll)} (hp : p.closing = false) :
    Spec (Holds ((a, p) ::ₘ S)) (uvClose a) (fun _ => Holds ((a, { p with events := none, closing := true }) ::ₘ S))
      (fun _ => False) := by
  rw [uvClose]
  refine spec_load_bind (Multiset.mem_cons_self _ _) (spec_assert_bind hp ?_)
  rw [← bind_pure (store _ _)]
  exact spec_store_bind (spec_pure fun _ hm => hm)

theorem load_succeeds {a : Addr} (h : polls.mem.cells.lookup a = some p) : onMem polls (load a) = .ok (p, polls) := by
  rw [onMem, load, h]
  rfl

theorem stopPoll_none (h : Handles none old polls) : stopPoll polls = .ok polls := if_neg (not_not.mpr h.eq_null)

theorem stopPoll_some (h : Handles (some p) old polls) :
    Succeeds (stopPoll polls) (Handles (some { p with events := none }) old) := by
  have hload : onMem polls (load polls.zkIoPollHdl) = .ok (p, polls) :=
    load_succeeds (h.cells.lookup (Multiset.mem_cons_self _ _))
  rw [stopPoll, if_pos h.ne_null, hload]
  change Succeeds (if p.events ≠ none then _ else _) _
  by_cases hev : p.events = none
  · rw [if_neg (not_not.mpr hev)]
    refine succeeds_ok ?_
    rwa [← hev]
  · rw [if_pos hev]
    exact (rewrite_succeeds h fun _ => spec_uvPollStop).bind fun _ hr => succeeds_ok hr

theorem closePoll_none (h : Handles none old polls) : closePoll polls = .ok polls := if_neg (not_not.mpr h.eq_null)

theorem closePoll_some (h : Handles (some p) old polls) (hp : p.closing = false) :
    Succeeds (closePoll polls)
      (Handles none ((polls.zkIoPollHdl, { p with events := none, closing := true }) ::ₘ old)) := by
  rw [closePoll, if_pos h.ne_null]
  refine (onMem_succeeds (spec_uvClose hp) h.cells).bind ?_
  rintro ⟨-, _⟩ ⟨m, rfl, hm⟩
  refine succeeds_ok ⟨?_, ?_, iff_of_true rfl rfl, ?_⟩
  · rw [handleCells, Multiset.zero_add]
    exact hm
  · rw [Multiset.map_cons, ← h.closing, Multiset.cons_coe]
  · intro x hx
    rcases Multiset.mem_cons.mp hx with rfl | hx
    · rfl
    · exact h.quiet x hx

theorem newPoll_succeeds (fd : Int) (h : Handles none old polls) :
    Succeeds (newPoll A fd polls) (Handles (some ⟨fd, none, false⟩) old) := by
  have hspec : Spec (Holds old) (malloc A pollSize (fun _ => ⟨fd, none, false⟩))
      (fun a m => a ≠ 0 ∧ Holds ((a, ⟨fd, none, false⟩) ::ₘ old) m) (fun _ => False) := by
    rw [← bind_pure (malloc _ _ _)]
    exact spec_malloc_bind (Or.inl (by decide)) fun x _ hx => spec_pure fun m hm => ⟨hx, hm⟩
  have hm := h.mem
  rw [handleCells, Multiset.zero_add] at hm
  refine (onMem_succeeds hspec hm).bind ?_
  rintro ⟨a, _⟩ ⟨m, rfl, hne, hm⟩
  refine succeeds_ok ⟨?_, h.closing, iff_of_false hne (by simp), h.quiet⟩
  rwa [handleCells, Multiset.singleton_add]

theorem startPoll_succeeds (events : Nat) (h : Handles (some p) old polls) (hp : p.closing = false) :
    Succeeds (startPoll events polls) (Handles (some { p with events := some events }) old) :=
  (rewrite_succeeds h fun _ => spec_uvPollStart events hp).bind fun _ hr => succeeds_ok hr

theorem releasePoll_none (h : Handles none old polls) : releasePoll polls = .ok polls := if_neg (not_not.mpr h.eq_null)

theorem releasePoll_some (h : Handles (some p) old polls) (hp : p.closing = false) :
    Succeeds (releasePoll polls) (fun polls' => ∃ old', Handles none old' polls') := by
  rw [releasePoll, if_pos h.ne_null]
  refine (rewrite_succeeds h fun _ => spec_uvPollStop).bind fun r hr => ?_
  exact (closePoll_some hr hp).mono fun _ hpolls => ⟨_, hpolls⟩

theorem deleteOnClose_succeeds {a : Addr} (h : Handles poll old polls) (ha : a ∈ polls.closing) :
    Succeeds (deleteOnClose a polls) (fun polls' => ∃ old' x, old = x ::ₘ old' ∧ Handles poll old' polls') := by
  rw [← Multiset.mem_coe, h.closing, Multiset.mem_map] at ha
  obtain ⟨x, hx, rfl⟩ := ha
  obtain ⟨rest, rfl⟩ := Multiset.exists_cons_of_mem hx
  have hm := h.mem
  rw [Multiset.add_cons] at hm
  have hspec : Spec (Holds (x ::ₘ (handleCells polls.zkIoPollHdl poll + rest))) (free x.1)
      (fun _ => Holds (handleCells polls.zkIoPollHdl poll + rest)) (fun _ => False) := by
    rw [← bind_pure (free _)]
    exact spec_free_bind (spec_pure fun _ hm => hm)
  refine (onMem_succeeds hspec hm).bind ?_
  rintro ⟨-, _⟩ ⟨m, rfl, hm⟩
  refine succeeds_ok ⟨rest, x, rfl, hm, ?_, h.null, fun y hy => h.quiet y (Multiset.mem_cons_of_mem hy)⟩
  calc
    (↑(polls.closing.erase x.1) : Multiset Addr) = (↑polls.closing : Multiset Addr).erase x.1 := (Multiset.coe_erase _ _).symm
    _ = rest.map Prod.fst := by rw [h.closing, Multiset.map_cons, Multiset.erase_cons_head]

section Watching

/-- What the handle is there for: it polls for the events that were asked for, on fd. After
a failure it can be left from another descriptor, and is then stopped. -/
def Watches (asked : Option Nat) (fd : Int) : Option Poll → Prop
  | none => fd = -1 ∧ asked = none
  | some p => p.closing = false ∧ p.events = asked ∧ (p.fd = fd ∨ fd = -1 ∧ asked = none)

def Watching (asked : Option Nat) (fd : Int) (polls : Polls) : Prop :=
  ∃ poll old, Handles poll old polls ∧ Watches asked fd poll

/-- There is no handle but those that are being closed. -/
def Idle (polls : Polls) : Prop := ∃ old, Handles none old polls

variable {asked : Option Nat} {fd : Int} {r : Interest}

/-- A call of yield with this result gets to its end. -/
def Good (r : Interest) : Prop := r.rc = zok ∧ r.fd ≠ -1

instance : Decidable (Good r) := inferInstanceAs (Decidable (_ ∧ _))

def askedFor (r : Interest) : Option Nat := if Good r then some (pollEvents r.interest) else none

theorem Idle.watching (h : Idle polls) : Watching none (-1) polls := by
  obtain ⟨old, h⟩ := h
  exact ⟨none, old, h, rfl, rfl⟩

theorem stopPoll_watching (h : Watching asked fd polls) : Succeeds (stopPoll polls) (Watching none fd) := by
  obtain ⟨poll, old, h, hw⟩ := h
  cases poll with
  | none =>
      rw [stopPoll_none h]
      exact succeeds_ok ⟨none, old, h, hw.1, rfl⟩
  | some p =>
      refine (stopPoll_some h).mono fun _ hpolls => ⟨_, old, hpolls, hw.1, rfl, ?_⟩
      exact hw.2.2.imp_right fun hfd => ⟨hfd.1, rfl⟩

theorem closePoll_idle (h : Watching asked fd polls) : Succeeds (closePoll polls) Idle := by
  obtain ⟨poll, old, h, hw⟩ := h
  cases poll with
  | none =>
      rw [closePoll_none h]
      exact succeeds_ok ⟨old, h⟩
  | some p => exact (closePoll_some h hw.1).mono fun _ hpolls => ⟨_, hpolls⟩

theorem releasePoll_idle (h : Watching asked fd polls) : Succeeds (releasePoll polls) Idle := by
  obtain ⟨poll, old, h, hw⟩ := h
  cases poll with
  | none =>
      rw [releasePoll_none h]
      exact succeeds_ok ⟨old, h⟩
  | some p => exact releasePoll_some h hw.1

theorem openPoll_watching (events : Nat) (h : Idle polls) :
    Succeeds (newPoll A fd polls >>= startPoll events) (Watching (some events) fd) := by
  obtain ⟨old, h⟩ := h
  refine (newPoll_succeeds fd h).bind fun polls' hpolls => ?_
  exact (startPoll_succeeds events hpolls rfl).mono fun _ hstarted => ⟨_, old, hstarted, rfl, rfl, .inl rfl⟩

/-- The handle is only used again if it was made for this descriptor. -/
theorem startPoll_watching (events : Nat) (hfd : fd ≠ -1) (h : Watching none fd polls) :
    Succeeds (startPoll events polls) (Watching (some events) fd) := by
  obtain ⟨poll, old, h, hw⟩ := h
  cases poll with
  | none => exact absurd hw.1 hfd
  | some p =>
      obtain ⟨hclosing, -, hp⟩ := hw
      have hsame : p.fd = fd := hp.resolve_right fun hbad => hfd hbad.1
      exact (startPoll_succeeds events h hclosing).mono fun _ hstarted => ⟨_, old, hstarted, hclosing, rfl, .inl hsame⟩

theorem Watching.failed (h : Watching none fd polls) {fd' : Int} (hfd : fd' = fd ∨ fd' = -1) : Watching none fd' polls := by
  rcases hfd with rfl | rfl
  · exact h
  · obtain ⟨poll, old, h, hw⟩ := h
    refine ⟨poll, old, h, ?_⟩
    cases poll with
    | none => exact ⟨rfl, rfl⟩
    | some p => exact ⟨hw.1, hw.2.1, .inr ⟨rfl, rfl⟩⟩

theorem repoll_watching (h : Watching asked fd polls) (hr : Keeps fd r) :
    Succeeds (repoll A fd r polls) (Watching (askedFor r) r.fd) := by
  refine (stopPoll_watching h).bind fun stopped hstopped => ?_
  by_cases hrc : r.rc = zok
  · rw [if_neg (not_not.mpr hrc)]
    by_cases hfd : r.fd = -1
    · have hasked : askedFor r = none := if_neg fun hgood => hgood.2 hfd
      rw [if_pos hfd, hasked, hfd]
      exact (closePoll_idle hstopped).mono fun _ hidle => hidle.watching
    · have hasked : askedFor r = some (pollEvents r.interest) := if_pos ⟨hrc, hfd⟩
      rw [if_neg hfd, hasked]
      by_cases hold : fd = r.fd
      · rw [if_neg (not_not.mpr hold)]
        exact startPoll_watching _ hfd (hold ▸ hstopped)
      · rw [if_pos hold]
        exact (closePoll_idle hstopped).bind fun _ hidle => openPoll_watching _ hidle
  · have hasked : askedFor r = none := if_neg fun hgood => hrc hgood.1
    rw [if_pos hrc, hasked]
    exact succeeds_ok (hstopped.failed (hr hrc))

end Watching

end StudyNotes.NodeZk.Polling
