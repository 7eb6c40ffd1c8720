import StudyNotes.Epoll.Program
import Mathlib.Data.List.Nodup

namespace StudyNotes.Epoll.Backlog

open Systems.Transition Program

variable {κ : Type} [DecidableEq κ]

/-- The accepts that the events of the batch still stand for. -/
def accepts (events : List (EpollEvent κ)) : Nat := events.countP fun e => decide (e.fd = .listen)

/-- A connection arrives while the flag of the listening socket is still set. -/
def collapses (p : State κ × Event κ) : Bool :=
  match p.2 with
  | .connect _ => p.1.listenReady
  | _ => false

@[simp] theorem accepts_nil : accepts ([] : List (EpollEvent κ)) = 0 := rfl

@[simp] theorem accepts_listen (b : Bool) (events : List (EpollEvent κ)) :
    accepts (⟨.listen, b⟩ :: events) = accepts events + 1 := by
  simp [accepts]

@[simp] theorem accepts_conn (c : κ) (b : Bool) (events : List (EpollEvent κ)) :
    accepts (⟨.conn c, b⟩ :: events) = accepts events := by
  simp [accepts]

/-- A batch names the listening socket at most once. -/
theorem accepts_batch {fds : List (Fd κ)} (hn : fds.Nodup) :
    accepts (fds.map fun fd => ⟨fd, true⟩) = (decide (Fd.listen ∈ fds)).toNat := by
  have hcount : accepts (fds.map fun fd => ⟨fd, true⟩) = fds.count .listen := by
    rw [accepts, List.countP_map, List.count]
    rfl
  rw [hcount]
  by_cases hm : Fd.listen ∈ fds
  · rw [List.count_eq_one_of_mem hn hm, decide_eq_true hm, Bool.toNat_true]
  · rw [List.count_eq_zero_of_not_mem hm, decide_eq_false hm, Bool.toNat_false]

/-- The backlog exceeds the accepts to come by the connections that collapsed. -/
def Counted (tr : List (State κ × Event κ)) (s : State κ) : Prop :=
  s.backlog.length = s.listenReady.toNat + accepts s.server.events + tr.countP collapses

theorem counted_step {tr : List (State κ × Event κ)} {s s' : State κ} {e : Event κ} (h : Counted tr s)
    (hs : Step s e s') : Counted (tr ++ [(s, e)]) s' := by
  unfold Counted at h ⊢
  rw [List.countP_append, List.countP_singleton]
  cases hs with
  | connect c hc =>
      cases hr : s.listenReady <;> simp [collapses, hr] at h ⊢ <;> omega
  | arrive c bytes hne hc ho => simpa [collapses] using h
  | peerClose c hc ho => simpa [collapses] using h
  | epollWait fds hw hne hn hlen hready =>
      have hflag : s.listenReady.toNat =
          (s.listenReady && !decide (Fd.listen ∈ fds)).toNat + (decide (Fd.listen ∈ fds)).toNat := by
        by_cases hm : Fd.listen ∈ fds
        · have := hready _ hm
          simp_all [State.isReady]
        · simp [hm]
      simp only [hw, Server.events, accepts_nil, Nat.add_zero] at h
      simp only [State.clear, Server.events, accepts_batch hn, collapses, Bool.false_eq_true, if_false]
      omega
  | accept b events c backlog hp hb =>
      simp only [hp, hb, Server.events, accepts_listen, List.length_cons] at h
      simp only [Server.events, collapses, Bool.false_eq_true, if_false]
      omega
  | acceptFails b events hp hb =>
      simp only [hp, hb, Server.events, accepts_listen, List.length_nil] at h
      omega
  | enterLoop c events hp => simpa [hp, Server.events, collapses] using h
  | unsupported c events hp => simpa [hp, Server.events, collapses] using h
  | recv c events chunk rest hr hb hne hlen => simpa [collapses] using h
  | endOfStream c events hr hb ho => simpa [hr, Server.events, collapses] using h
  | again c events hr hb ho => simpa [hr, Server.events, collapses] using h
  | endBatch hp => simpa [hp, Server.events, collapses] using h

theorem counted_run {tr : List (State κ × Event κ)} {s : State κ} (h : Run (system κ) tr s) : Counted tr s := by
  refine Run.induct ?_ (fun tr s e s' _ hI hs => counted_step hI hs) h
  rintro s rfl
  rfl

/-- In a blocked state the backlog is empty if and only if every connection so far
arrived while the flag of the listening socket was clear. -/
theorem backlog_empty_iff (κ : Type) [DecidableEq κ] (tr : List (State κ × Event κ)) (s : State κ)
    (h : Run (system κ) tr s) (hb : Blocked s) : s.backlog = [] ↔ ∀ p ∈ tr, collapses p = false := by
  have hcount := counted_run h
  have hflag : s.listenReady = false := hb.2 .listen
  rw [Counted, hflag, hb.1] at hcount
  simp only [Bool.toNat_false, Server.events, accepts_nil, Nat.zero_add] at hcount
  rw [← List.length_eq_zero_iff, hcount, List.countP_eq_zero]
  simp

/-- The second connection arrives after the first edge has been taken. -/
theorem backlog_empty_two : ∃ tr s, Run (system Bool) tr s ∧ Blocked s ∧ s.backlog = [] := by
  have h₁ : Run (system Bool) _ _ := .next (.start rfl) (.connect _ false rfl)
  have h₂ : Run (system Bool) _ _ :=
    h₁.next (.epollWait _ [.listen] rfl (by simp) (by simp) (by decide) (by simp [State.isReady]))
  have h₃ : Run (system Bool) _ _ := h₂.next (.connect _ true rfl)
  have h₄ : Run (system Bool) _ _ := h₃.next (.accept _ true [] false [true] rfl rfl)
  have h₅ : Run (system Bool) _ _ := h₄.next (.endBatch _ rfl)
  have h₆ : Run (system Bool) _ _ :=
    h₅.next (.epollWait _ [.listen] rfl (by simp) (by simp) (by decide) (by simp [State.isReady, State.clear]))
  have h₇ : Run (system Bool) _ _ := h₆.next (.accept _ true [] true [] rfl rfl)
  have h₈ : Run (system Bool) _ _ := h₇.next (.endBatch _ rfl)
  refine ⟨_, _, h₈, ?_, ?_⟩
  · refine ⟨rfl, ?_⟩
    rintro (_ | _ | _) <;> rfl
  · refine (backlog_empty_iff Bool _ _ h₈ ⟨rfl, ?_⟩).2 ?_
    · rintro (_ | _ | _) <;> rfl
    · simp [collapses, State.init, State.clear]

/-- Two connections share one edge, and the second stays in the backlog. -/
theorem second_stranded : ∃ tr s, Run (system Bool) tr s ∧ Blocked s ∧ s.backlog = [true] := by
  have h₁ : Run (system Bool) _ _ := .next (.start rfl) (.connect _ false rfl)
  have h₂ : Run (system Bool) _ _ := h₁.next (.connect _ true rfl)
  have h₃ : Run (system Bool) _ _ :=
    h₂.next (.epollWait _ [.listen] rfl (by simp) (by simp) (by decide) (by simp [State.isReady]))
  have h₄ : Run (system Bool) _ _ := h₃.next (.accept _ true [] false [true] rfl rfl)
  have h₅ : Run (system Bool) _ _ := h₄.next (.endBatch _ rfl)
  refine ⟨_, _, h₅, ⟨rfl, ?_⟩, rfl⟩
  rintro (_ | _ | _) <;> rfl

end StudyNotes.Epoll.Backlog
