import StudyNotes.ThreadEcho.Program
import StudyNotes.Heap.Outcome

namespace StudyNotes.ThreadEcho.Serving

open Heap.Program Heap.Outcome Systems.Transition Program

section Ownership

/-- The block through which the descriptor of a connection is handed over. -/
def argOf : Stage → Option Addr
  | .allocated p | .abandoned p | .started p | .loaded p _ => some p
  | .unseen | .accepted _ | .reading _ | .printing _ _ | .writing _ _ | .closing _ | .exited => none

/-- The descriptor of a connection, in the hands of its thread or still in the block. -/
def fdOf (cell : Addr → Option Fd) : Stage → Option Fd
  | .allocated p | .abandoned p | .started p => cell p
  | .accepted conn | .loaded _ conn | .reading conn | .printing conn _ | .writing conn _ | .closing conn => some conn
  | .unseen | .exited => none

/-- Descriptors and connections between accept and close correspond to each other, and so
do the blocks and the connections that are handed over. -/
structure Owned (cell : Addr → Option Fd) (fds : Fd → Option Nat) (stage : Nat → Stage) : Prop where
  agree : ∀ t c, fdOf cell (stage t) = some c ↔ fds c = some t
  full : ∀ t p, argOf (stage t) = some p → cell p = fdOf cell (stage t) ∧ cell p ≠ none
  block : ∀ p, cell p ≠ none → ∃ t, argOf (stage t) = some p

variable {cell : Addr → Option Fd} {fds : Fd → Option Nat} {stage : Nat → Stage} {t : Nat} {c : Fd} {p : Addr}

theorem fdOf_update_of_ne {st : Stage} {v : Option Fd} (h : argOf st ≠ some p) :
    fdOf (Function.update cell p v) st = fdOf cell st := by
  cases st <;> simp_all [fdOf, argOf]

theorem owned_init : Owned (fun _ => none) (fun _ => none) (fun _ => .unseen) where
  agree _ _ := by simp [fdOf]
  full _ _ h := absurd h (by simp [argOf])
  block _ h := absurd rfl h

namespace Owned

variable (h : Owned cell fds stage)
include h

theorem arg_unique {t' : Nat} (ht : argOf (stage t) = some p) (ht' : argOf (stage t') = some p) : t = t' := by
  obtain ⟨heq, hne⟩ := h.full t p ht
  obtain ⟨c, hc⟩ := Option.ne_none_iff_exists'.1 hne
  have ho := (h.agree t c).1 (heq ▸ hc)
  have ho' := (h.agree t' c).1 ((h.full t' p ht').1 ▸ hc)
  exact Option.some_inj.1 (ho.symm.trans ho')

/-- A stage of one thread changes, and with it no descriptor and no block. -/
theorem move (st : Stage) (hfd : fdOf cell st = fdOf cell (stage t)) (harg : argOf st = argOf (stage t)) :
    Owned cell fds (Function.update stage t st) := by
  have heq : ∀ t', fdOf cell (Function.update stage t st t') = fdOf cell (stage t') ∧
      argOf (Function.update stage t st t') = argOf (stage t') := by
    intro t'
    rcases eq_or_ne t' t with rfl | ht
    · simp [hfd, harg]
    · simp [ht]
  refine ⟨fun t' c => ?_, fun t' p hp => ?_, fun p hp => ?_⟩
  · rw [(heq t').1, h.agree]
  · rw [(heq t').1]
    exact h.full t' p ((heq t').2 ▸ hp)
  · obtain ⟨t', ht'⟩ := h.block p hp
    exact ⟨t', (heq t').2.trans ht'⟩

/-- The stage of a thread without a block changes to another one without a block. -/
theorem full_update {st : Stage} (hst : argOf st = none) {t' : Nat}
    (hp : argOf (Function.update stage t st t') = some p) :
    cell p = fdOf cell (Function.update stage t st t') ∧ cell p ≠ none := by
  rcases eq_or_ne t' t with rfl | ht
  · rw [Function.update_self, hst] at hp
    cases hp
  · rw [Function.update_of_ne ht] at hp ⊢
    exact h.full t' p hp

theorem block_update {st : Stage} (hst : argOf (stage t) = none) (hp : cell p ≠ none) :
    ∃ t', argOf (Function.update stage t st t') = some p := by
  obtain ⟨t', ht'⟩ := h.block p hp
  refine ⟨t', ?_⟩
  rwa [Function.update_of_ne]
  rintro rfl
  rw [hst] at ht'
  cases ht'

theorem accept (hfd : fds c = none) (hst : stage t = .unseen) :
    Owned cell (Function.update fds c (some t)) (Function.update stage t (.accepted c)) := by
  refine ⟨fun t' c' => ?_, fun t' p hp => h.full_update rfl hp, fun p hp => h.block_update (by rw [hst, argOf]) hp⟩
  have := h.agree t' c'
  rcases eq_or_ne t' t with rfl | ht <;> rcases eq_or_ne c' c with rfl | hc <;> grind [fdOf]

theorem allocate (hst : stage t = .accepted c) (hp : cell p = none) :
    Owned (Function.update cell p (some c)) fds (Function.update stage t (.allocated p)) := by
  have hframe : ∀ t', fdOf (Function.update cell p (some c)) (stage t') = fdOf cell (stage t') :=
    fun t' => fdOf_update_of_ne fun harg => (h.full t' p harg).2 hp
  refine ⟨fun t' c' => ?_, fun t' p' hp' => ?_, fun p' hp' => ?_⟩
  · rcases eq_or_ne t' t with rfl | ht
    · simpa [fdOf, hst] using h.agree t' c'
    · rw [Function.update_of_ne ht, hframe, h.agree]
  · rcases eq_or_ne t' t with rfl | ht
    · obtain rfl : p = p' := by simpa [argOf] using hp'
      simp [fdOf]
    · rw [Function.update_of_ne ht] at hp' ⊢
      have hfull := h.full t' p' hp'
      rwa [hframe, Function.update_of_ne]
      rintro rfl
      exact hfull.2 hp
  · rcases eq_or_ne p' p with rfl | hne
    · exact ⟨t, by simp [argOf]⟩
    · rw [Function.update_of_ne hne] at hp'
      exact h.block_update (by rw [hst, argOf]) hp'

theorem release (hst : stage t = .loaded p c) :
    Owned (Function.update cell p none) fds (Function.update stage t (.reading c)) := by
  have harg : argOf (stage t) = some p := by rw [hst, argOf]
  have hother : ∀ t', t' ≠ t → argOf (stage t') ≠ some p := fun t' ht ht' => ht (h.arg_unique ht' harg)
  refine ⟨fun t' c' => ?_, fun t' p' hp' => ?_, fun p' hp' => ?_⟩
  · rcases eq_or_ne t' t with rfl | ht
    · simpa [fdOf, hst] using h.agree t' c'
    · rw [Function.update_of_ne ht, fdOf_update_of_ne (hother t' ht), h.agree]
  · rcases eq_or_ne t' t with rfl | ht
    · simp [argOf] at hp'
    · rw [Function.update_of_ne ht] at hp' ⊢
      have hne : p' ≠ p := by
        rintro rfl
        exact hother t' ht hp'
      rw [fdOf_update_of_ne (hother t' ht), Function.update_of_ne hne]
      exact h.full t' p' hp'
  · rcases eq_or_ne p' p with rfl | hne
    · simp at hp'
    · rw [Function.update_of_ne hne] at hp'
      obtain ⟨t', ht'⟩ := h.block p' hp'
      refine ⟨t', ?_⟩
      rwa [Function.update_of_ne]
      rintro rfl
      exact hne (Option.some_inj.1 (ht'.symm.trans harg))

theorem close (hst : stage t = .closing c) :
    Owned cell (Function.update fds c none) (Function.update stage t .exited) := by
  refine ⟨fun t' c' => ?_, fun t' p hp => h.full_update rfl hp, fun p hp => h.block_update (by rw [hst, argOf]) hp⟩
  have := h.agree t' c'
  have := h.agree t c'
  rcases eq_or_ne t' t with rfl | ht <;> rcases eq_or_ne c' c with rfl | hc <;> grind [fdOf]

end Owned

end Ownership

section Invariant

/-- The stages in which the main thread has a connection. -/
def Pending : Stage → Prop
  | .accepted _ | .allocated _ => True
  | _ => False

structure Inv (s : State) : Prop where
  owned : Owned (cell s.mem) s.fds s.stage
  unseen : ∀ t, s.stage t = .unseen ↔ s.accepted ≤ t
  pending : ∀ t, Pending (s.stage t) → s.main = some t

variable {A : Allocator Fd} {s s' : State} {e : Event}

theorem inv_init : Inv State.init where
  owned := owned_init
  unseen _ := by simp [State.init]
  pending _ h := by simp [State.init, Pending] at h

/-- The stage of an accepted connection changes, with its descriptor and its block. -/
theorem Inv.change (h : Inv s) {t : Nat} {st : Stage} {m : Mem Fd} {fds : Fd → Option Nat} {main : Option Nat}
    (ho : Owned (cell m) fds (Function.update s.stage t st)) (hst : s.stage t ≠ .unseen) (hst' : st ≠ .unseen)
    (hm : s.main = some t ∨ main = s.main) (hp : Pending st → main = some t) :
    Inv { s.setStage t st with mem := m, fds := fds, main := main } where
  owned := ho
  unseen t' := by
    have := h.unseen t'
    grind
  pending t' ht' := by
    have := h.pending t'
    grind

/-- A thread goes on and keeps its descriptor and its block. -/
theorem Inv.move (h : Inv s) {t : Nat} {st st' : Stage} (hst : s.stage t = st)
    (hfd : fdOf (cell s.mem) st' = fdOf (cell s.mem) st) (harg : argOf st' = argOf st) (hseen : st ≠ .unseen)
    (hseen' : st' ≠ .unseen) (hp : ¬Pending st') : Inv (s.setStage t st') := by
  subst hst
  exact h.change (h.owned.move st' hfd harg) hseen hseen' (.inr rfl) fun hp' => absurd hp' hp

theorem Inv.setConn (h : Inv s) (k : Nat) (c : Conn) : Inv (s.setConn k c) := ⟨h.owned, h.unseen, h.pending⟩

theorem Inv.fall (h : Inv s) : Inv { s with down := true } := ⟨h.owned, h.unseen, h.pending⟩

theorem inv_step (h : Inv s) (hs : Step A s e s') : Inv s' := by
  cases hs with
  | arrive | peerClose | reset => exact h.setConn _ _
  | acceptFailed | readFailed | brokenPipe => exact h.fall
  | accept fd hd hm hfd =>
      have hst := (h.unseen s.accepted).2 le_rfl
      refine ⟨h.owned.accept hfd hst, fun t => ?_, fun t ht => ?_⟩
      · have := h.unseen t
        grind
      · have := h.pending t
        grind
  | allocate t conn p m hd hm hst hp =>
      obtain ⟨hnone, hcell⟩ := cells_of_malloc hp
      have ho := h.owned.allocate hst hnone
      rw [← hcell] at ho
      exact h.change ho (by simp [hst]) (by simp) (.inr rfl) fun _ => hm
  | create t p hd hm hst =>
      have ho := h.owned.move (.started p) (by rw [hst]; rfl) (by rw [hst]; rfl)
      exact h.change ho (by simp [hst]) (by simp) (.inl hm) False.elim
  | createFailed t p hd hm hst =>
      have ho := h.owned.move (.abandoned p) (by rw [hst]; rfl) (by rw [hst]; rfl)
      exact h.change ho (by simp [hst]) (by simp) (.inl hm) False.elim
  | load t arg conn m hd hst hload =>
      obtain ⟨rfl, hcell⟩ := load_eq_ok_iff.1 hload
      exact h.move hst hcell.symm rfl (by simp) (by simp) id
  | release t arg conn m hd hst hfree =>
      have ho := h.owned.release hst
      rw [← cells_of_free hfree] at ho
      exact h.change ho (by simp [hst]) (by simp) (.inr rfl) False.elim
  | read t conn k recvbuf rest hd hst =>
      apply Inv.setConn
      exact h.move hst rfl rfl (by simp) (by simp) id
  | readZero t conn k hd hst => exact h.move hst rfl rfl (by simp) (by simp) id
  | print t conn recvbuf hd hst => exact h.move hst rfl rfl (by simp) (by simp) id
  | write t conn recvbuf k hd hst =>
      apply Inv.setConn
      exact h.move hst rfl rfl (by simp) (by simp) id
  | writeFailed t conn recvbuf k hd hst => exact h.move hst rfl rfl (by simp) (by simp) id
  | close t conn hd hst => exact h.change (h.owned.close hst) (by simp [hst]) (by simp) (.inr rfl) False.elim

theorem inv_reachable (h : Reachable (system A) s) : Inv s := by
  refine Reachable.invariant (I := Inv) ?_ (fun _ _ _ => inv_step) h
  rintro s rfl
  exact inv_init

theorem Inv.opened (h : Inv s) {t : Nat} {c : Fd} (ht : fdOf (cell s.mem) (s.stage t) = some c) : s.fds c = some t :=
  (h.owned.agree t c).1 ht

theorem Inv.fds_ne_none (h : Inv s) {t : Nat} {c : Fd} {st : Stage} (hst : s.stage t = st)
    (hc : fdOf (cell s.mem) st = some c) : s.fds c ≠ none := by
  subst hst
  exact (h.opened hc).symm ▸ Option.some_ne_none t

theorem Inv.cell_of_arg (h : Inv s) {t : Nat} {p : Addr} (ht : argOf (s.stage t) = some p) :
    ∃ c, cell s.mem p = some c :=
  Option.ne_none_iff_exists'.1 (h.owned.full t p ht).2

theorem Inv.overread_of_faulty (h : Inv s) {crash : Crash} (hf : Faulty s crash) : crash = .overread := by
  cases hf with
  | load t arg e hst hload =>
      exact absurd (cell_of_load_error hload) (h.owned.full t arg (by rw [hst, argOf])).2
  | release t arg conn e hst hfree =>
      exact absurd (cell_of_free_error hfree) (h.owned.full t arg (by rw [hst, argOf])).2
  | read t conn hst hfd => exact absurd hfd (h.fds_ne_none hst rfl)
  | write t conn recvbuf hst hfd => exact absurd hfd (h.fds_ne_none hst rfl)
  | close t conn hst hfd => exact absurd hfd (h.fds_ne_none hst rfl)
  | print => rfl

theorem Inv.fdOf_ne_none_iff (h : Inv s) (t : Nat) :
    fdOf (cell s.mem) (s.stage t) ≠ none ↔ t < s.accepted ∧ s.stage t ≠ .exited := by
  have hunseen := h.unseen t
  have hfull := h.owned.full t
  cases hst : s.stage t <;> simp_all [fdOf, argOf]

theorem Inv.cell_ne_none_iff (h : Inv s) (p : Addr) : cell s.mem p ≠ none ↔ ∃! t, argOf (s.stage t) = some p := by
  constructor
  · intro hp
    obtain ⟨t, ht⟩ := h.owned.block p hp
    exact ⟨t, ht, fun t' ht' => h.owned.arg_unique ht' ht⟩
  · rintro ⟨t, ht, -⟩
    exact (h.owned.full t p ht).2

end Invariant

section Abandoned

def isAbandoned : Stage → Bool
  | .abandoned _ => true
  | _ => false

/-- The connections that nobody serves or closes any more. -/
def abandoned (s : State) : Finset Nat := {t ∈ Finset.range s.accepted | isAbandoned (s.stage t)}

variable {A : Allocator Fd} {s s' : State} {e : Event}

theorem abandoned_setStage {t : Nat} {st : Stage} (h : isAbandoned st = isAbandoned (s.stage t)) :
    abandoned (s.setStage t st) = abandoned s := by
  refine Finset.filter_congr fun t' _ => ?_
  rw [State.setStage_stage]
  split_ifs with ht
  · rw [ht, h]
  · rfl

theorem card_abandoned_step (h : Inv s) (hs : Step A s e s') :
    (abandoned s').card = (abandoned s).card + [e].count .createFailed := by
  cases hs with
  | arrive | peerClose | reset | acceptFailed | readFailed | brokenPipe => rfl
  | accept fd hd hm hfd =>
      change (abandoned _).card = (abandoned s).card
      congr 1
      ext t
      simp only [abandoned, Finset.mem_filter, Finset.mem_range, State.setStage_stage]
      grind [isAbandoned]
  | createFailed t p hd hm hst =>
      have ht : t ∉ abandoned s := by
        rw [abandoned, Finset.mem_filter, hst]
        exact fun hmem => Bool.false_ne_true hmem.2
      have hlt : t < s.accepted := by
        have := h.unseen t
        grind
      rw [List.count_singleton_self, ← Finset.card_insert_of_notMem ht]
      congr 1
      ext t'
      simp only [abandoned, Finset.mem_insert, Finset.mem_filter, Finset.mem_range, State.setStage_stage]
      grind [isAbandoned]
  | _ => exact congrArg Finset.card (abandoned_setStage (by simp [*, isAbandoned]))

theorem card_abandoned {tr : List (State × Event)} (h : Run (system A) tr s) :
    (abandoned s).card = (events tr).count .createFailed := by
  refine Run.induct (I := fun tr s => (abandoned s).card = (events tr).count .createFailed) (fun s hs => ?_) ?_ h
  · cases hs
    rfl
  · intro tr s e s' hr ih hs
    rw [card_abandoned_step (inv_reachable hr.reachable) hs, ih, events_concat, List.count_append]

end Abandoned

variable {A : Allocator Fd}

/-- In every interleaving the threads work on their own connections only, although
descriptors and blocks are used again: nothing is used after it was given back, and what is
in use belongs to one connection between accept and close. The exceptions are a print
beyond the buffer, and the connections without a thread, which are never given back. -/
theorem threads_keep_apart {tr : List (State × Event)} {s : State} (h : Run (system A) tr s) :
    (∀ crash, Faulty s crash → crash = .overread) ∧
    (∀ c t, s.fds c = some t ↔ fdOf (cell s.mem) (s.stage t) = some c) ∧
    (∀ t, fdOf (cell s.mem) (s.stage t) ≠ none ↔ t < s.accepted ∧ s.stage t ≠ .exited) ∧
    (∀ p, cell s.mem p ≠ none ↔ ∃! t, argOf (s.stage t) = some p) ∧
    (abandoned s).card = (events tr).count .createFailed := by
  have hI := inv_reachable h.reachable
  refine ⟨fun crash => hI.overread_of_faulty, fun c t => (hI.owned.agree t c).symm, hI.fdOf_ne_none_iff,
    hI.cell_ne_none_iff, card_abandoned h⟩

/-- A first connection has been accepted. -/
def demo : State :=
  { State.init.setStage 0 (.accepted 3) with
    fds := Function.update State.init.fds 3 (some 0), main := some 0, accepted := 1 }

theorem demo_accepted (A : Allocator Fd) : Run (system A) [(State.init, .accept 3)] demo :=
  (Run.start rfl).next (Step.accept State.init 3 rfl rfl rfl)

theorem threads_keep_apart_abandoned :
    ∃ tr s, Run (system bump) tr s ∧ s.stage 0 = .abandoned 1 ∧ (abandoned s).card = 1 := by
  have hallocated := (demo_accepted bump).next (Step.allocate demo 0 3 1 _ rfl rfl rfl rfl)
  have hrun := hallocated.next (Step.createFailed _ 0 1 rfl rfl rfl)
  obtain ⟨-, -, -, -, hcard⟩ := threads_keep_apart hrun
  exact ⟨_, _, hrun, rfl, hcard⟩

end StudyNotes.ThreadEcho.Serving
