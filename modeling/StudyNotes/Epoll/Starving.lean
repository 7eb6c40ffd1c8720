import StudyNotes.Epoll.Modes

namespace StudyNotes.Epoll.Starving

open Systems.Transition Program Modes

variable {κ : Type} [DecidableEq κ]

/-- The descriptors of the events that are left. -/
def left (s : Program.State κ) : List (Fd κ) := s.server.events.map EpollEvent.fd

/-- In every mode the events that are left are of different descriptors, and the
connections among them can be read. Only a connection that was read to its end or
reset is closed. With epoll_et_loop a connection with something to read is not forgotten. -/
structure Sane (mode : Mode) (s : Modes.State κ) : Prop where
  nodup : (left s.toState).Nodup
  batched : ∀ c, .conn c ∈ left s.toState → (s.conns c).status = .registered ∧ readable (s.conns c) = true
  current : ∀ c events, s.server = .reading c events →
    mode.trigger = .edgeLoop ∧ (s.conns c).status = .registered ∧ .conn c ∉ left s.toState
  closed : ∀ c, (s.conns c).status = .closed →
    s.reset c = true ∨ ((s.conns c).buffer = [] ∧ (s.conns c).peerClosed = true)
  attended : mode.trigger = .edgeLoop → ∀ c, (s.conns c).status = .registered → readable (s.conns c) = true →
    (s.conns c).ready = true ∨ .conn c ∈ left s.toState ∨ ∃ events, s.server = .reading c events
  epollin : ∀ e ∈ s.server.events, e.epollin = true

variable {mode : Mode} {s s' : Modes.State κ}

attribute [local grind] left readable fail drain Modes.close Server.events Conn.raise Conn.register
attribute [local grind =] Function.update_apply

theorem Sane.shared {e : Program.Event κ} {t : Program.State κ} (h : Sane mode s) (he : isShared e = true)
    (hs : Program.Step s.toState e t) : Sane mode { s with toState := t } := by
  obtain ⟨hn, hbatched, hcurrent, hclosed, hattended, hepollin⟩ := h
  cases hs with
  | connect c hc => constructor <;> grind
  | arrive c bytes hne hc ho =>
      have hsome : (s.conns c).buffer ++ bytes ≠ [] := List.append_ne_nil_of_right_ne_nil _ hne
      constructor <;> grind
  | peerClose c hc ho => constructor <;> grind
  | accept b events c backlog hp hb => constructor <;> grind
  | acceptFails b events hp hb => constructor <;> grind
  | unsupported c events hp => constructor <;> grind
  | endBatch hp => constructor <;> grind
  | _ => cases he

theorem Sane.wait {fds : List (Fd κ)} (h : Sane mode s) (hw : s.server = .waiting) (hn : fds.Nodup)
    (hready : ∀ fd ∈ fds, isReady mode s fd = true) :
    Sane mode { s with toState := { s.clear fds with server := .processing (fds.map fun fd => ⟨fd, true⟩) } } := by
  have hleft : left { s.clear fds with server := .processing (fds.map fun fd => ⟨fd, true⟩) } = fds := by
    rw [left, Server.events, List.map_map]
    exact List.map_id' fds
  have hready' : ∀ c, .conn c ∈ fds → (s.conns c).status = .registered ∧ readable (s.conns c) = true := by
    intro c hc
    have := hready (.conn c) hc
    simp only [isReady, Bool.and_eq_true, decide_eq_true_eq] at this
    exact this.1
  refine ⟨by rwa [hleft], fun c hc => hready' c (by rwa [hleft] at hc), fun c events => nofun, h.closed, ?_, ?_⟩
  · intro hm c hstatus hreadable
    rw [hleft]
    by_cases hc : .conn c ∈ fds
    · exact .inr (.inl hc)
    · left
      have hflag : (s.conns c).ready = true := by
        rcases h.attended hm c hstatus hreadable with hflag | hin | ⟨events, hr⟩
        · exact hflag
        · rw [left, hw] at hin
          exact absurd hin List.not_mem_nil
        · rw [hw] at hr
          cases hr
      simp [State.clear, hflag, hc]
  · intro e he
    obtain ⟨fd, -, rfl⟩ := List.mem_map.mp he
    rfl

theorem Sane.step {e : Modes.Event κ} (h : Sane mode s) (hs : Modes.Step mode s e s') : Sane mode s' := by
  cases hs with
  | shared e _ he hs => exact h.shared he hs
  | wait fds hw hne hn hlen hready => exact h.wait hw hn hready
  | reset c hc =>
      obtain ⟨hn, hbatched, hcurrent, hclosed, hattended, hepollin⟩ := h
      constructor <;> grind
  | enter c events hm hp =>
      obtain ⟨hn, hbatched, hcurrent, hclosed, hattended, hepollin⟩ := h
      constructor <;> grind
  | loopRecv c events chunk rest hr hb hne hlen =>
      obtain ⟨hn, hbatched, hcurrent, hclosed, hattended, hepollin⟩ := h
      constructor <;> grind
  | loopEnd c events hr hb ho =>
      obtain ⟨hn, hbatched, hcurrent, hclosed, hattended, hepollin⟩ := h
      constructor <;> grind
  | loopAgain c events hm hr hb ho =>
      obtain ⟨hn, hbatched, hcurrent, hclosed, hattended, hepollin⟩ := h
      constructor <;> grind
  | loopError c events hr hc =>
      obtain ⟨hn, hbatched, hcurrent, hclosed, hattended, hepollin⟩ := h
      constructor <;> grind
  | onceRecv c events chunk rest hm hp hb hne hlen =>
      obtain ⟨hn, hbatched, hcurrent, hclosed, hattended, hepollin⟩ := h
      constructor <;> grind
  | onceEnd c events hm hp hb ho =>
      obtain ⟨hn, hbatched, hcurrent, hclosed, hattended, hepollin⟩ := h
      constructor <;> grind
  | onceError c events hm hp hc =>
      obtain ⟨hn, hbatched, hcurrent, hclosed, hattended, hepollin⟩ := h
      constructor <;> grind
  | onceAgain c events hm hn hp hb ho =>
      have hreadable := (h.batched c (by rw [left, hp]; exact List.mem_cons_self)).2
      simp [readable, hb, ho] at hreadable

theorem sane_reachable (h : Reachable (Modes.system κ mode) s) : Sane mode s := by
  refine Reachable.invariant (fun s hs => ?_) (fun _ _ _ hI hs => hI.step hs) h
  rw [hs]
  constructor <;> simp [Modes.State.init, Program.State.init, left, Server.events, readable]

omit [DecidableEq κ] in
theorem asleep_unread {c : κ} (h : Sane mode s) (hs : Asleep mode s) (hc : Unread s c) :
    mode.trigger = .edgeOnce ∨ (mode.trigger = .edgeLoop ∧ mode.nonblock = false) := by
  have hreadable : readable (s.conns c) = true := by simp [readable, hc.2]
  cases hs with
  | waiting hw hnone =>
      have hc' := hnone (.conn c)
      simp only [isReady, hc.1, hreadable, decide_true, Bool.true_and, Bool.or_eq_false_iff, decide_eq_false_iff_not] at hc'
      cases ht : mode.trigger with
      | level => exact absurd ht hc'.1
      | edgeOnce => exact .inl rfl
      | edgeLoop =>
          rcases h.attended ht c hc.1 hreadable with hflag | hin | ⟨events, hr⟩
          · rw [hc'.2] at hflag
            cases hflag
          · rw [left, hw] at hin
            exact absurd hin List.not_mem_nil
          · rw [hw] at hr
            cases hr
  | loop d events hr hm _ => exact .inr ⟨(h.current d events hr).1, hm⟩
  | once d events hp _ _ hnot =>
      have hd := (h.batched d (by rw [left, hp]; exact List.mem_cons_self)).2
      rw [hnot] at hd
      cases hd

section Sleeping

/-- Nothing is in the backlog, nothing was reset, and the connections are as given. -/
def calm (conns : κ → Conn) (server : Server κ) : Modes.State κ := ⟨⟨[], false, conns, server⟩, fun _ => false⟩

def quiet (bytes : List UInt8) : Conn := ⟨.registered, bytes, false, false⟩

theorem clear_listen (conns : κ → Conn) (backlog : List κ) (server : Server κ) :
    (Program.State.mk backlog true conns server).clear [.listen] = ⟨backlog, false, conns, server⟩ := by
  simp [State.clear]

theorem clear_conn {conns : κ → Conn} (c : κ) :
    (calm conns .waiting).clear [.conn c] =
      (calm (Function.update conns c { conns c with ready := false }) .waiting).toState := by
  rw [State.clear, calm, calm]
  congr 1
  funext d
  by_cases hd : d = c
  · subst hd
    simp
  · simp [hd]

theorem reachable_next {e : Modes.Event κ} {t : Modes.State κ} (h : Reachable (Modes.system κ mode) s)
    (hs : Modes.Step mode s e s') (ht : s' = t) : Reachable (Modes.system κ mode) t := ht ▸ h.next hs

theorem reachable_accept {conns : κ → Conn} {c : κ} (h : Reachable (Modes.system κ mode) (calm conns .waiting))
    (hc : conns c = ⟨.absent, [], false, false⟩) :
    Reachable (Modes.system κ mode) (calm (Function.update conns c (quiet [])) .waiting) := by
  have h₁ : Reachable (Modes.system κ mode)
      ⟨⟨[c], true, Function.update conns c ⟨.queued, [], false, false⟩, .waiting⟩, fun _ => false⟩ :=
    reachable_next h (.shared _ _ _ rfl (.connect _ c (by simp [calm, hc]))) (by simp [calm, hc])
  have h₂ : Reachable (Modes.system κ mode)
      ⟨⟨[c], false, Function.update conns c ⟨.queued, [], false, false⟩, .processing [⟨.listen, true⟩]⟩, fun _ => false⟩ :=
    reachable_next h₁ (.wait _ [.listen] rfl (by simp) (by simp) (by simp [maxEpollEvents]) (by simp [isReady]))
      (by rw [clear_listen]; rfl)
  have h₃ : Reachable (Modes.system κ mode) (calm (Function.update conns c (quiet [])) (.processing [])) :=
    reachable_next h₂ (.shared _ _ _ rfl (.accept _ true [] c [] rfl rfl)) (by simp [calm, quiet, Conn.register])
  exact reachable_next h₃ (.shared _ _ _ rfl (.endBatch _ rfl)) rfl

theorem reachable_arrive {conns : κ → Conn} {server : Server κ} {c : κ} (bytes : List UInt8)
    (h : Reachable (Modes.system κ mode) (calm conns server)) (hc : conns c = quiet []) (hne : bytes ≠ []) :
    Reachable (Modes.system κ mode) (calm (Function.update conns c { quiet bytes with ready := true }) server) :=
  reachable_next h (.shared _ _ _ rfl (.arrive _ c bytes hne (by simp [calm, hc, quiet]) (by simp [calm, hc, quiet])))
    (by simp [calm, hc, quiet, Conn.raise])

theorem reachable_wait {conns : κ → Conn} {c : κ} {bytes : List UInt8}
    (h : Reachable (Modes.system κ mode) (calm conns .waiting)) (hc : conns c = { quiet bytes with ready := true })
    (hne : bytes ≠ []) :
    Reachable (Modes.system κ mode) (calm (Function.update conns c (quiet bytes)) (.processing [⟨.conn c, true⟩])) := by
  have hready : isReady mode (calm conns .waiting) (.conn c) = true := by simp [isReady, calm, hc, quiet, readable, hne]
  refine reachable_next h (.wait _ [.conn c] rfl (by simp) (by simp) (by simp [maxEpollEvents]) (by simpa using hready)) ?_
  rw [clear_conn, hc]
  rfl

def nobody : κ → Conn := fun _ => ⟨.absent, [], false, false⟩

/-- Six bytes arrive, and one recv takes five of them. -/
theorem sleeps_edgeOnce (mode : Mode) (c : κ) (hm : mode.trigger = .edgeOnce) :
    ∃ s, Reachable (Modes.system κ mode) s ∧ Asleep mode s ∧ ∃ c, Unread s c := by
  have h₁ : Reachable (Modes.system κ mode) (calm (Function.update nobody c (quiet [])) .waiting) :=
    reachable_accept (.start rfl) rfl
  have h₂ := reachable_arrive [1, 2, 3, 4, 5, 6] h₁ (Function.update_self _ _ _) (by simp)
  rw [Function.update_idem] at h₂
  have h₃ := reachable_wait h₂ (Function.update_self _ _ _) (by simp)
  rw [Function.update_idem] at h₃
  have h₄ : Reachable (Modes.system κ mode) (calm (Function.update nobody c (quiet [6])) (.processing [])) := by
    refine reachable_next h₃ (.onceRecv _ c [] [1, 2, 3, 4, 5] [6] (by rw [hm]; decide) rfl
      (by simp [calm, quiet]) (by simp) (by decide)) ?_
    rw [calm, calm]
    congr 2
    funext d
    by_cases hd : d = c
    · subst hd
      simp [drain, quiet]
    · simp [drain, hd]
  have h₅ : Reachable (Modes.system κ mode) (calm (Function.update nobody c (quiet [6])) .waiting) :=
    reachable_next h₄ (.shared _ _ _ rfl (.endBatch _ rfl)) rfl
  refine ⟨_, h₅, .waiting rfl fun fd => ?_, c, ?_⟩
  · cases fd with
    | listen => rfl
    | conn d =>
        by_cases hd : d = c
        · subst hd
          simp [isReady, calm, quiet, hm]
        · simp [isReady, calm, nobody, hd]
  · simp [Unread, calm, quiet]

/-- The loop stays in its second recv on one connection while a byte of another waits. -/
theorem sleeps_edgeLoop {a b : κ} (hab : a ≠ b) (hm : mode.trigger = .edgeLoop) (hblock : mode.nonblock = false) :
    ∃ s, Reachable (Modes.system κ mode) s ∧ Asleep mode s ∧ ∃ c, Unread s c := by
  have h₁ : Reachable (Modes.system κ mode) (calm (Function.update nobody b (quiet [])) .waiting) :=
    reachable_accept (.start rfl) rfl
  have h₂ := reachable_accept (c := a) h₁ (by rw [Function.update_of_ne hab]; rfl)
  have h₃ := reachable_arrive [1] h₂ (Function.update_self _ _ _) (by simp)
  rw [Function.update_idem] at h₃
  have h₄ := reachable_wait h₃ (Function.update_self _ _ _) (by simp)
  rw [Function.update_idem] at h₄
  have h₅ := reachable_next h₄ (.enter _ a [] hm rfl) rfl
  have h₆ : Reachable (Modes.system κ mode)
      (calm (Function.update (Function.update nobody b (quiet [])) a (quiet [])) (.reading a [])) := by
    refine reachable_next h₅ (.loopRecv _ a [] [1] [] rfl (by simp [calm, quiet]) (by simp) (by decide)) ?_
    rw [calm, calm]
    congr 2
    funext d
    by_cases hd : d = a
    · subst hd
      simp [drain, quiet]
    · simp [drain, hd]
  have h₇ := reachable_arrive (c := b) [2] h₆
    (by rw [Function.update_of_ne hab.symm, Function.update_self]) (by simp)
  refine ⟨_, h₇, .loop a [] rfl hblock ?_, b, ?_⟩
  · simp [calm, readable, quiet, hab]
  · simp [Unread, calm, quiet]

end Sleeping

/-- The server can be blocked while bytes of a connection are unread in just two of the
modes: with EPOLLET and one recv for an event, and with EPOLLET and a loop of recv on
blocking sockets. -/
theorem sleeps_on_input_iff {a b : κ} (hab : a ≠ b) (mode : Mode) :
    (∃ s, Reachable (Modes.system κ mode) s ∧ Asleep mode s ∧ ∃ c, Unread s c) ↔
      mode.trigger = .edgeOnce ∨ (mode.trigger = .edgeLoop ∧ mode.nonblock = false) := by
  constructor
  · rintro ⟨s, hr, hs, c, hc⟩
    exact asleep_unread (sane_reachable hr) hs hc
  · rintro (hm | ⟨hm, hblock⟩)
    · exact sleeps_edgeOnce mode a hm
    · exact sleeps_edgeLoop hab hm hblock

/-- The mode that main uses. -/
theorem sleeps_on_input_iff_main :
    ¬∃ s, Reachable (Modes.system Bool ⟨.edgeLoop, true⟩) s ∧ Asleep ⟨.edgeLoop, true⟩ s ∧ ∃ c, Unread s c := by
  rw [sleeps_on_input_iff Bool.false_ne_true]
  decide

section Flow

def arrived (c : κ) : Modes.Event κ → List UInt8
  | .shared (.arrive d bytes) => if d = c then bytes else []
  | _ => []

def received (c : κ) : Modes.Event κ → List UInt8
  | .recv d chunk => if d = c then chunk else []
  | _ => []

theorem flow_step {e : Modes.Event κ} (hs : Modes.Step mode s e s') (c : κ) :
    received c e ++ (s'.conns c).buffer = (s.conns c).buffer ++ arrived c e := by
  cases hs with
  | shared e _ he hs =>
      cases hs with
      | arrive d bytes hne hd ho =>
          by_cases hdc : d = c
          · subst hdc
            simp [received, arrived, Conn.raise]
          · simp [received, arrived, hdc, Ne.symm hdc]
      | connect d hd | peerClose d hd ho | accept b events d backlog hp hb =>
          by_cases hdc : c = d
          · subst hdc
            simp [received, arrived, Conn.raise, Conn.register]
          · simp [received, arrived, hdc]
      | acceptFails b events hp hb | unsupported d events hp | endBatch hp => simp [received, arrived]
      | _ => cases he
  | wait fds hw hne hn hlen hready => simp [received, arrived, State.clear]
  | enter d events hm hp => simp [received, arrived]
  | loopAgain d events hm hr hb ho => simp [received, arrived]
  | loopRecv d events chunk rest hr hb hne hlen | onceRecv d events chunk rest hm hp hb hne hlen =>
      by_cases hdc : c = d
      · subst hdc
        simp [received, arrived, drain, hb]
      · simp [received, arrived, drain, hdc, Ne.symm hdc]
  | reset d hd =>
      by_cases hdc : c = d
      · subst hdc
        simp [received, arrived, fail, Conn.raise]
      · simp [received, arrived, fail, hdc]
  | loopEnd d events hr hb ho | loopError d events hr hd | onceEnd d events hm hp hb ho | onceError d events hm hp hd
  | onceAgain d events hm hn hp hb ho =>
      by_cases hdc : c = d
      · subst hdc
        simp [received, arrived, Modes.close]
      · simp [received, arrived, Modes.close, hdc]

/-- In every mode the bytes of a connection are received in the order in which they
arrived, and the server closes it only after the peer has closed and all were received, or
after it was reset. -/
theorem bytes_in_order (mode : Mode) (tr : List (Modes.State κ × Modes.Event κ)) (s : Modes.State κ)
    (h : Run (Modes.system κ mode) tr s) (c : κ) :
    along (received c) tr ++ (s.conns c).buffer = along (arrived c) tr ∧
    ((s.conns c).status = .closed →
      s.reset c = true ∨ (along (received c) tr = along (arrived c) tr ∧ (s.conns c).peerClosed = true)) := by
  have hflow : along (received c) tr ++ (s.conns c).buffer = along (arrived c) tr := by
    refine Run.induct (I := fun tr s => along (received c) tr ++ (s.conns c).buffer = along (arrived c) tr)
      (fun s hs => ?_) (fun tr s e s' _ hI hs => ?_) h
    · rw [hs]
      rfl
    · rw [along_concat, along_concat, List.append_assoc, flow_step hs c, ← List.append_assoc, hI]
  refine ⟨hflow, fun hclosed => ?_⟩
  refine ((sane_reachable h.reachable).closed c hclosed).imp_right fun ⟨hbuffer, hpeer⟩ => ?_
  rw [hbuffer, List.append_nil] at hflow
  exact ⟨hflow, hpeer⟩

theorem bytes_in_order_unread : ∃ tr s c, Run (Modes.system Bool ⟨.edgeOnce, true⟩) tr s ∧ (s.conns c).buffer ≠ [] ∧
    along (received c) tr ++ (s.conns c).buffer = along (arrived c) tr := by
  obtain ⟨s, ⟨tr, hr⟩, -, c, hc⟩ := sleeps_edgeOnce ⟨.edgeOnce, true⟩ true rfl
  exact ⟨tr, s, c, hr, hc.2, (bytes_in_order ⟨.edgeOnce, true⟩ tr s hr c).1⟩

end Flow

end StudyNotes.Epoll.Starving
