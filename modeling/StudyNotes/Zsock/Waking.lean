import StudyNotes.Zsock.Program
import StudyNotes.Systems.Refinement

namespace StudyNotes.Zsock.Waking

open Systems.Transition Systems.Refinement Program

theorem sGetRevents_snd (z : Socket) (events : BitVec 32) : (sGetRevents z events).2 = z.process := by
  rw [sGetRevents]
  split <;> rfl

theorem sGetRevents_zero (z : Socket) : (sGetRevents z 0).1 = 0 := by
  rw [sGetRevents]
  split <;> simp

/-- What s_check_cb would report now. -/
def wanted (s : State) : BitVec 32 := (sGetRevents s.socket s.events).1

theorem sPrepareCb_eq (s : State) : sPrepareCb s =
    { s with
      socket := s.socket.process
      handles := if wanted s ≠ 0 then Function.update s.handles .idle { s.handles .idle with active := true }
        else s.handles } := by
  rw [sPrepareCb, wanted, ← sGetRevents_snd s.socket s.events]
  generalize sGetRevents s.socket s.events = r
  obtain ⟨revents, socket⟩ := r
  dsimp only
  split <;> rfl

theorem sCheckCb_eq (s : State) : sCheckCb s =
    ({ s with
        socket := s.socket.process
        handles := Function.update s.handles .idle { s.handles .idle with active := false } },
      if wanted s ≠ 0 then some (wanted s) else none) := by
  rw [sCheckCb, wanted, ← sGetRevents_snd s.socket s.events]
  generalize hr : sGetRevents s.socket s.events = r
  obtain ⟨revents, socket⟩ := r
  simp only [State.set, hr]
  split <;> rfl

/-- All handles have had their close callback. -/
def Done (s : State) : Prop := ∀ h, (s.handles h).data = false

theorem sCloseCb_fst (s : State) (h : Handle) : (sCloseCb s h).1 =
    { s with handles := Function.update s.handles h { s.handles h with closing := false, data := false } } := by
  rw [sCloseCb]
  dsimp only
  split <;> rfl

/-- The callback of the last handle calls close_cb. -/
theorem sCloseCb_snd (s : State) (h : Handle) : (sCloseCb s h).2 = true ↔ Done (sCloseCb s h).1 ∧ s.closeCb = true := by
  have hdone (u : State) : ((u.handles .prepare).data = false ∧ (u.handles .check).data = false ∧
      (u.handles .idle).data = false ∧ (u.handles .poll).data = false) ↔ Done u := by
    refine ⟨fun ⟨h₁, h₂, h₃, h₄⟩ k => ?_, fun hd => ⟨hd _, hd _, hd _, hd _⟩⟩
    cases k <;> assumption
  rw [sCloseCb_fst, ← hdone, sCloseCb]
  dsimp only
  split
  · rename_i hall
    simp only [hall, true_and]
  · rename_i hall
    simp [hall]

/-- All four handles have been handed to uv_close, and those that still have their
data will get their callback. -/
def Ending (s : State) : Prop := ∀ h, (s.handles h).active = false ∧ (s.handles h).closing = (s.handles h).data

/-- The handles are started, stopped and closed together, and if the loop may come
to wait, the socket had nothing to report when s_prepare_cb asked it. -/
structure Wired (s : State) : Prop where
  together : (s.handles .check).active = (s.handles .prepare).active
  polls : (s.handles .poll).active = ((s.handles .prepare).active && decide (s.events ≠ 0))
  called : (s.handles .prepare).active = true → s.cb = true
  live : s.Open ∨ Ending s
  asked : s.phase = .prepared → (s.handles .prepare).active = true → (s.handles .idle).active = false →
    (sGetRevents ⟨s.socket.flags, []⟩ s.events).1 = 0

/-- A change of the idle handle and the socket, as s_prepare_cb and s_check_cb make it. -/
theorem Wired.setIdle {s : State} (h : Wired s) (hopen : s.Open) (phase : Phase) (socket : Socket) (active : Bool)
    (hasked : phase = .prepared → active = false → (sGetRevents ⟨socket.flags, []⟩ s.events).1 = 0) :
    Wired { s with
      phase := phase
      socket := socket
      handles := Function.update s.handles .idle { s.handles .idle with active := active } } := by
  refine ⟨by simpa using h.together, by simpa using h.polls, by simpa using h.called, Or.inl fun k => ?_, ?_⟩
  · by_cases hk : k = .idle
    · subst hk
      simpa using hopen .idle
    · simpa [hk] using hopen k
  · intro hp _ hidle
    exact hasked hp (by simpa using hidle)

theorem Wired.isOpen {s : State} (h : Wired s) {k : Handle} (ha : (s.handles k).active = true) : s.Open := by
  refine h.live.resolve_right fun he => ?_
  rw [(he k).1] at ha
  cases ha

theorem wired_of_ending {s : State} (h : Ending s) : Wired s := by
  refine ⟨by rw [(h _).1, (h _).1], by rw [(h _).1, (h _).1, Bool.false_and], ?_, Or.inr h, ?_⟩
  · simp [(h .prepare).1]
  · simp [(h .prepare).1]

theorem ending_closed {s : State} (h : Ending s) (k : Handle) : Ending (sCloseCb s k).1 := by
  intro j
  rw [sCloseCb_fst]
  by_cases hj : j = k
  · subst hj
    simpa using (h j).1
  · simpa [hj] using h j

theorem wired_step {s s' : State} {e : Event} (h : Wired s) (hs : Step s e s') : Wired s' := by
  cases hs with
  | arrive flags => exact ⟨h.together, h.polls, h.called, h.live, h.asked⟩
  | use socket hp hm => exact ⟨h.together, h.polls, h.called, h.live, fun hp' => absurd hp' hp⟩
  | start events hp ho =>
      refine ⟨rfl, by simp [uvZsockStart, State.set], fun _ => rfl, Or.inl fun k => ?_, fun hp' => absurd hp' hp⟩
      have hk := ho k
      cases k <;> simpa [uvZsockStart, State.set, Function.update_apply] using hk
  | stop hp =>
      refine ⟨rfl, by simp [uvZsockStop, State.set], by simp [uvZsockStop, State.set], ?_, fun hp' => absurd hp' hp⟩
      refine h.live.imp (fun ho k => ?_) (fun he k => ?_)
      · have hk := ho k
        cases k <;> simpa [uvZsockStop, State.set, Function.update_apply] using hk
      · have hk := (he k).2
        cases k <;> simpa [uvZsockStop, State.set, Function.update_apply] using hk
  | close cb hp ho =>
      refine ⟨rfl, ?_, ?_, Or.inr fun k => ?_, fun hp' => absurd hp' hp⟩
      · simp [uvZsockClose, State.uvClose]
      · simp [uvZsockClose, State.uvClose]
      · have hk := (ho k).2
        cases k <;> simpa [uvZsockClose, State.uvClose, Function.update_apply] using hk
  | prepare hp =>
      cases ha : (s.handles .prepare).active with
      | false =>
          refine ⟨h.together, h.polls, h.called, h.live, fun _ ha' => ?_⟩
          rw [show (s.handles .prepare).active = true from ha'] at ha
          cases ha
      | true =>
          simp only [if_true, sPrepareCb_eq]
          by_cases hw : wanted s = 0
          · simp only [hw, ne_eq, not_true_eq_false, if_false]
            exact ⟨h.together, h.polls, h.called, h.live, fun _ _ _ => hw⟩
          · simp only [hw, ne_eq, not_false_eq_true, if_true]
            exact h.setIdle (h.isOpen ha) .prepared _ true nofun
  | poll other hp hw => exact ⟨h.together, h.polls, h.called, h.live, nofun⟩
  | check hp ha =>
      rw [sCheckCb_eq]
      exact h.setIdle (h.isOpen ha) .checked _ false nofun
  | checkNone hp ha => exact ⟨h.together, h.polls, h.called, h.live, nofun⟩
  | closed k hp hc =>
      have he : Ending s := h.live.resolve_left fun ho => by simp [(ho k).1] at hc
      exact wired_of_ending (ending_closed he k)
  | next hp => exact ⟨h.together, h.polls, h.called, h.live, nofun⟩

theorem wired_reachable {s : State} (h : Reachable system s) : Wired s := by
  refine Reachable.invariant (I := Wired) ?_ (fun s e s' hI hs => wired_step hI hs) h
  rintro s ⟨z, rfl⟩
  exact ⟨rfl, rfl, nofun, Or.inl fun _ => ⟨rfl, rfl⟩, nofun⟩

section Wakeup

variable {tr : List (State × Event)} {s : State}

def Started (s : State) : Prop := (s.handles .check).active = true

/-- The loop waits, and neither the idle handle nor the socket's descriptor ends it. -/
def Blocked (s : State) : Prop := s.phase = .prepared ∧ ¬s.Awake

/-- The steps that the loop takes for this uv_zsock_t alone. -/
def Own : Event → Prop
  | .prepare | .poll false | .check _ | .closed _ _ | .next => True
  | .arrive _ | .use _ | .start _ | .stop | .close _ | .poll true => False

theorem wanted_of_blocked (h : Wired s) (hs : Started s) (hb : Blocked s) : wanted s = 0 := by
  obtain ⟨hp, hawake⟩ := hb
  have hprep : (s.handles .prepare).active = true := by rw [← h.together]; exact hs
  by_cases hev : s.events = 0
  · rw [wanted, hev]
    exact sGetRevents_zero _
  · -- the descriptor is polled, so no command has come since s_prepare_cb
    have hpoll : (s.handles .poll).active = true := by
      rw [h.polls, hprep, Bool.true_and]
      exact decide_eq_true hev
    have hidle : (s.handles .idle).active = false := by
      cases hi : (s.handles .idle).active with
      | false => rfl
      | true => exact absurd (Or.inl hi) hawake
    have hempty : s.socket.mailbox = [] := by
      by_contra hne
      exact hawake (Or.inr (Or.inr ⟨hpoll, hne⟩))
    have hasked := h.asked hp hprep hidle
    rwa [← hempty] at hasked

/-- The callback will be called with these events by steps of the loop alone. -/
def LeadsToCall (tr : List (State × Event)) (revents : BitVec 32) : Prop :=
  ∃ tr' u s', Run system (tr ++ tr' ++ [(u, .check (some revents))]) s' ∧ u.cb = true ∧ ∀ p ∈ tr', Own p.2

theorem LeadsToCall.after {e : Event} {revents : BitVec 32} (h : LeadsToCall (tr ++ [(s, e)]) revents) (he : Own e) :
    LeadsToCall tr revents := by
  obtain ⟨tr', u, s', hr, hcb, hown⟩ := h
  refine ⟨(s, e) :: tr', u, s', by simpa using hr, hcb, ?_⟩
  intro p hp
  rcases List.mem_cons.mp hp with rfl | hp
  · exact he
  · exact hown p hp

theorem leads_polled (h : Run system tr s) (hs : Started s) (hp : s.phase = .polled) (hw : wanted s ≠ 0) :
    LeadsToCall tr (wanted s) := by
  have hwired := wired_reachable h.reachable
  have hstep : Step s (.check (some (wanted s))) { (sCheckCb s).1 with phase := .checked } := by
    have hcheck := Step.check s hp hs
    rwa [show (sCheckCb s).2 = some (wanted s) by rw [sCheckCb_eq, if_pos hw]] at hcheck
  refine ⟨[], s, _, by simpa using h.next hstep, hwired.called ?_, fun _ hp => absurd hp List.not_mem_nil⟩
  rw [← hwired.together]
  exact hs

theorem leads_prepared (h : Run system tr s) (hs : Started s) (hp : s.phase = .prepared) (hw : wanted s ≠ 0) :
    LeadsToCall tr (wanted s) := by
  have hawake : s.Awake := by
    by_contra ha
    exact hw (wanted_of_blocked (wired_reachable h.reachable) hs ⟨hp, ha⟩)
  have hnext : Run system _ _ := h.next (.poll s false hp (Or.inr hawake))
  exact (leads_polled hnext hs rfl hw).after trivial

theorem leads_turn (h : Run system tr s) (hs : Started s) (hp : s.phase = .turn) (hw : wanted s ≠ 0) :
    LeadsToCall tr (wanted s) := by
  have hprep : (s.handles .prepare).active = true := by
    rw [← (wired_reachable h.reachable).together]
    exact hs
  have hnext : Run system _ _ := h.next (.prepare s hp)
  simp only [hprep, if_true, sPrepareCb_eq] at hnext
  -- asking the socket once does not change what it answers the next time
  refine (leads_prepared hnext ?_ rfl hw).after trivial
  rw [Started, if_pos hw]
  exact hs

/-- The loop does not wait for anything else while the socket has something to
report, and it then calls the callback with it. -/
theorem no_lost_wakeup (tr : List (State × Event)) (s : State) (h : Run system tr s) (hs : Started s) :
    (Blocked s → wanted s = 0) ∧
    (wanted s ≠ 0 → ∃ tr' u s', Run system (tr ++ tr' ++ [(u, .check (some (wanted s)))]) s' ∧ u.cb = true ∧
      ∀ p ∈ tr', Own p.2) := by
  refine ⟨wanted_of_blocked (wired_reachable h.reachable) hs, fun hw => ?_⟩
  cases hp : s.phase with
  | turn => exact leads_turn h hs hp hw
  | prepared => exact leads_prepared h hs hp hw
  | polled => exact leads_polled h hs hp hw
  | checked =>
      have hnext : Run system _ _ := h.next (.next s hp)
      exact (leads_turn hnext hs rfl hw).after trivial

/-- A message arrives after s_prepare_cb has found nothing. -/
theorem no_lost_wakeup_late : ∃ tr s tr' u s', Run system tr s ∧ s.phase = .prepared ∧
    (s.handles .idle).active = false ∧ Run system (tr ++ tr' ++ [(u, .check (some uvReadable))]) s' := by
  have h₁ : Run system _ _ := .next (.start ⟨⟨some 0, []⟩, rfl⟩) (.start _ uvReadable nofun (fun _ => ⟨rfl, rfl⟩))
  have h₂ : Run system _ _ := .next h₁ (.prepare _ rfl)
  have h₃ : Run system _ _ := .next h₂ (.arrive _ (some zmqPollin))
  obtain ⟨tr', u, s', h, -, -⟩ := (no_lost_wakeup _ _ h₃ rfl).2 (by decide)
  exact ⟨_, _, tr', u, s', h₃, rfl, rfl, h⟩

end Wakeup

section Closing

variable {tr : List (State × Event)} {s s' : State} {e : Event}

def isCloseCall : Event → Bool
  | .closed _ call => call
  | _ => false

/-- The calls of close_cb. -/
def closeCalls (tr : List (State × Event)) : Nat := tr.countP fun p => isCloseCall p.2

/-- A call of code of the user. -/
def Calls : Event → Prop
  | .check (some _) => True
  | .closed _ call => call = true
  | _ => False

theorem not_open_of_done (hd : Done s) : ¬s.Open := fun ho => by simpa [hd .idle] using (ho .idle).2

/-- In the end nothing is called, and nothing can be done about it. -/
theorem done_step (h : Wired s) (hd : Done s) (hs : Step s e s') : Done s' ∧ s'.closeCb = s.closeCb ∧ ¬Calls e := by
  have hending : Ending s := h.live.resolve_left (not_open_of_done hd)
  cases hs with
  | arrive | use | poll | next => exact ⟨hd, rfl, id⟩
  | start events hp ho | close cb hp ho => exact absurd ho (not_open_of_done hd)
  | stop hp =>
      refine ⟨fun k => ?_, rfl, id⟩
      have hk := hd k
      cases k <;> simpa [uvZsockStop, State.set, Function.update_apply] using hk
  | prepare hp =>
      rw [(hending .prepare).1]
      exact ⟨hd, rfl, id⟩
  | check hp ha => simp [(hending .check).1] at ha
  | checkNone hp ha => exact ⟨hd, rfl, id⟩
  | closed k hp hc => simp [(hending k).2, hd k] at hc

theorem closeCalls_concat (tr : List (State × Event)) (s : State) (e : Event) :
    closeCalls (tr ++ [(s, e)]) = closeCalls tr + (isCloseCall e).toNat := by
  rw [closeCalls, List.countP_append, closeCalls]
  cases he : isCloseCall e <;> simp [he]

/-- Only the close callbacks clear the data of a handle. -/
theorem data_step (hs : Step s e s') (he : ∀ k call, e ≠ .closed k call) (h : Handle) :
    (s'.handles h).data = (s.handles h).data := by
  cases hs with
  | arrive | use | poll | checkNone | next => rfl
  | start => cases h <;> rfl
  | stop => cases h <;> rfl
  | close => cases h <;> rfl
  | prepare =>
      dsimp only
      rw [sPrepareCb_eq]
      split_ifs
      · cases h <;> rfl
      · rfl
      · rfl
  | check =>
      rw [sCheckCb_eq]
      cases h <;> rfl
  | closed k => exact absurd rfl (he _ _)

theorem not_done_step (hd : ¬Done s) (hs : Step s e s') : isCloseCall e = true ↔ Done s' ∧ s'.closeCb = true := by
  by_cases he : ∃ k call, e = .closed k call
  · obtain ⟨k, call, rfl⟩ := he
    cases hs with
    | closed hp hc =>
        rw [isCloseCall, sCloseCb_snd, sCloseCb_fst]
  · push Not at he
    have hnot : ¬Done s' := fun hd' => hd fun h => (data_step hs he h).symm.trans (hd' h)
    have hno : isCloseCall e = false := by
      cases e with
      | closed k call => exact absurd rfl (he k call)
      | _ => rfl
    simp [hno, hnot]

/-- close_cb has been called if all handles are closed, and nothing is called after it. -/
structure Closed (tr : List (State × Event)) (s : State) : Prop where
  once : closeCalls tr ≤ 1
  called : closeCalls tr = 1 ↔ Done s ∧ s.closeCb = true
  last : ∀ tr₁ u k tr₂, tr = tr₁ ++ (u, .closed k true) :: tr₂ → ∀ p ∈ tr₂, ¬Calls p.2

theorem closeCalls_pos {tr₁ tr₂ : List (State × Event)} {u : State} {k : Handle} :
    closeCalls (tr₁ ++ (u, .closed k true) :: tr₂) ≠ 0 := by
  simp [closeCalls, isCloseCall]

theorem closed_step (hw : Wired s) (h : Closed tr s) (hs : Step s e s') : Closed (tr ++ [(s, e)]) s' := by
  have honce := h.once
  have hcalls : closeCalls (tr ++ [(s, e)]) ≤ 1 ∧ (closeCalls (tr ++ [(s, e)]) = 1 ↔ Done s' ∧ s'.closeCb = true) := by
    rw [closeCalls_concat]
    by_cases hd : Done s
    · obtain ⟨hd', hcb, hno⟩ := done_step hw hd hs
      have hzero : isCloseCall e = false := by
        cases e with
        | closed k call => simpa [Calls, isCloseCall] using hno
        | _ => rfl
      have hcalled := h.called
      simp only [hd, true_and] at hcalled
      simpa [hzero, hd', hcb, hcalled] using honce
    · have hnone : closeCalls tr = 0 := by
        have hne : closeCalls tr ≠ 1 := fun h1 => hd (h.called.mp h1).1
        omega
      rw [hnone, ← not_done_step hd hs]
      cases isCloseCall e <;> simp
  refine ⟨hcalls.1, hcalls.2, fun tr₁ u k tr₂ htr p hp => ?_⟩
  -- the call lies before the last event, so the handles were closed when it was taken
  rcases List.eq_nil_or_concat tr₂ with rfl | ⟨tr₂', q, rfl⟩
  · cases hp
  · rw [List.concat_eq_append, ← List.cons_append, ← List.append_assoc] at htr
    obtain ⟨htr', hq⟩ := List.append_inj' htr rfl
    cases hq
    rw [List.concat_eq_append, List.mem_append, List.mem_singleton] at hp
    rcases hp with hp | rfl
    · exact h.last tr₁ u k tr₂' htr' p hp
    · have hpos : closeCalls tr ≠ 0 := htr' ▸ closeCalls_pos
      have hone : closeCalls tr = 1 := by omega
      exact (done_step hw (h.called.mp hone).1 hs).2.2

theorem closed_run (h : Run system tr s) : Closed tr s := by
  refine Run.induct ?_ (fun tr s e s' hr hI hs => closed_step (wired_reachable hr.reachable) hI hs) h
  rintro s ⟨z, rfl⟩
  refine ⟨Nat.zero_le _, ⟨nofun, fun ⟨hd, _⟩ => ?_⟩, fun tr₁ u k tr₂ htr => ?_⟩
  · exact absurd (hd .idle) Bool.noConfusion
  · exact absurd htr.symm (by simp)

/-- What the loop has still to do until the last close callback. -/
def toClose (s : State) : Nat :=
  4 * ((s.handles .prepare).data.toNat + (s.handles .check).data.toNat + (s.handles .idle).data.toNat +
      (s.handles .poll).data.toNat) +
    match s.phase with
    | .turn => 3
    | .prepared => 2
    | .polled => 1
    | .checked => 0

theorem toClose_closed (s : State) (k : Handle) (hk : (s.handles k).data = true) :
    toClose (sCloseCb s k).1 < toClose s := by
  rw [sCloseCb_fst]
  cases k <;> simp [toClose, hk]

theorem exists_own_step (h : Ending s) (hd : ¬Done s) :
    ∃ e s', Step s e s' ∧ Own e ∧ (Ending s' ∧ s'.closeCb = s.closeCb) ∧ toClose s' < toClose s := by
  obtain ⟨k, hk⟩ := not_forall.mp hd
  have hdata : (s.handles k).data = true := by simpa using hk
  have hclosing : (s.handles k).closing = true := (h k).2.trans hdata
  cases hp : s.phase with
  | turn =>
      have hstep := Step.prepare s hp
      simp only [(h .prepare).1, Bool.false_eq_true, if_false] at hstep
      exact ⟨_, _, hstep, trivial, ⟨h, rfl⟩, by simp [toClose, hp]⟩
  | prepared =>
      exact ⟨_, _, .poll s false hp (Or.inr (Or.inr (Or.inl ⟨k, hclosing⟩))), trivial, ⟨h, rfl⟩, by simp [toClose, hp]⟩
  | polled => exact ⟨_, _, .checkNone s hp (h .check).1, trivial, ⟨h, rfl⟩, by simp [toClose, hp]⟩
  | checked =>
      exact ⟨_, _, .closed s k hp hclosing, trivial, ⟨ending_closed h k, by rw [sCloseCb_fst]⟩, toClose_closed s k hdata⟩

/-- In every run close_cb is called at most once, when the last of the four handles is
closed, and no callback of the user is called after it. After uv_zsock_close the loop
gets there by itself. -/
theorem close_called_once (tr : List (State × Event)) (s : State) (h : Run system tr s) :
    closeCalls tr ≤ 1 ∧ (closeCalls tr = 1 ↔ Done s ∧ s.closeCb = true) ∧
    (∀ tr₁ u k tr₂, tr = tr₁ ++ (u, .closed k true) :: tr₂ → ∀ p ∈ tr₂, ¬Calls p.2) ∧
    (Ending s → ∃ tr' s', Run system (tr ++ tr') s' ∧ Done s' ∧ s'.closeCb = s.closeCb ∧ ∀ p ∈ tr', Own p.2) := by
  have hc := closed_run h
  refine ⟨hc.once, hc.called, hc.last, fun he => ?_⟩
  have hstep (u : State) (_ : Reachable system u) (hu : Ending u ∧ u.closeCb = s.closeCb) (hd : ¬Done u) :
      ∃ e u', Step u e u' ∧ Own e ∧ (Ending u' ∧ u'.closeCb = s.closeCb) ∧ toClose u' < toClose u := by
    obtain ⟨e, u', hs, hown, ⟨he', hcb⟩, hlt⟩ := exists_own_step hu.1 hd
    exact ⟨e, u', hs, hown, ⟨he', hcb.trans hu.2⟩, hlt⟩
  obtain ⟨tr', s', hr, ⟨-, hcb⟩, hd, hown⟩ := exists_goal toClose hstep h ⟨he, rfl⟩
  exact ⟨tr', s', hr, hd, hcb, hown⟩

theorem close_called_once_early : ∃ tr tr' s', Run system tr (uvZsockClose (uvZsockInit ⟨some 0, []⟩) true) ∧
    Run system (tr ++ tr') s' ∧ closeCalls (tr ++ tr') = 1 := by
  have h₁ : Run system _ _ := .next (.start ⟨⟨some 0, []⟩, rfl⟩) (.close _ true nofun (fun _ => ⟨rfl, rfl⟩))
  obtain ⟨tr', s', h, hd, hcb, -⟩ := (close_called_once _ _ h₁).2.2.2 (fun k => by cases k <;> exact ⟨rfl, rfl⟩)
  exact ⟨_, tr', s', h₁, h, (close_called_once _ _ h).2.1.mpr ⟨hd, hcb⟩⟩

end Closing

end StudyNotes.Zsock.Waking
