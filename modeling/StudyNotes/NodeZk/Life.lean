import StudyNotes.NodeZk.Polling
import StudyNotes.Systems.Refinement

namespace StudyNotes.NodeZk.Life

open Heap.Program Heap.Triple Heap.Outcome Systems.Transition Systems.Refinement Program Polling

/-- The life of an object. It is stalled if it has a session and no timer that runs, unused if close came
before init, and reopened if init came after close. While it runs, the events are those that the handle
polls for. -/
inductive Phase
  | fresh
  | stalled
  | running (asked : Option Nat)
  | closing
  | finished
  | unused
  | reopened
deriving DecidableEq

namespace Phase

def isClosed : Phase → Bool
  | fresh | stalled | running _ => false
  | closing | finished | unused | reopened => true

def refs : Phase → Nat
  | fresh | finished | unused => 0
  | stalled | running _ | closing | reopened => 1

def hasSession : Phase → Bool
  | stalled | running _ | reopened => true
  | fresh | closing | finished | unused => false

/-- Where there always is a time to wait, a timer that runs repeats. -/
def Timed (waits : Prop) : Phase → Timer → Prop
  | fresh, t | unused, t => t = .zeroed
  | stalled, t | reopened, t => t = .stopped
  | running _, t => ∃ again, (waits → 0 < again) ∧ t = .active again
  | closing, t => t = .closing
  | finished, t => t = .closed

def Polled : Phase → Int → Polls → Prop
  | fresh, fd, polls => fd = -1 ∧ Idle polls
  | stalled, fd, polls => Watching none fd polls
  | running asked, fd, polls => Watching asked fd polls
  | closing, _, polls | finished, _, polls | unused, _, polls | reopened, _, polls => Idle polls

/-- The phase after realClose. -/
def close : Phase → Phase
  | fresh => unused
  | stalled | running _ => closing
  | p => p

/-- The phase after calls of the user. -/
def told (p : Phase) (user : List UserCall) : Phase := if UserCall.close ∈ user then p.close else p

/-- The phase after yield, of an object with a session and this timer. -/
def yielded (r : Interest) : Timer → Phase
  | .active _ => running (askedFor r)
  | _ => if Good r then running (askedFor r) else stalled

end Phase

/-- What the members and the memory are in each phase. -/
structure Shape (waits : Prop) (p : Phase) (s : State) : Prop where
  isClosed : s.isClosed = p.isClosed
  refs : s.refs = p.refs
  session : s.zhandle.isSome = p.hasSession
  timer : p.Timed waits s.zkTimer
  polls : p.Polled s.fd s.polls

def Notice.closes : Notice → Bool
  | .watcher .session .authFailed _ _ | .watcher .session .expired _ _ => true
  | .watcher .session .other _ _ | .watcher .unknown _ _ _ => false
  | .watcher _ _ _ user | .completion user => decide (.close ∈ user)

/-- A step of the object, seen from outside. A timer that does not repeat and fires when zookeeper_interest
fails is not started again. -/
inductive Moves (waits : Prop) : Phase → Event → Phase → Prop
  | refused (p now r) (h : p = .fresh ∨ p = .finished ∨ p = .unused) : Moves waits p (.init false now r) p
  | opened (now r) (h : Good r) : Moves waits .fresh (.init true now r) (.running (askedFor r))
  | missed (now r) (h : ¬Good r) : Moves waits .fresh (.init true now r) .stalled
  | reopened (p now r) (h : p = .finished ∨ p = .unused) : Moves waits p (.init true now r) .reopened
  | close (p) : Moves waits p (.user .close) p.close
  | ask (p call) (h : call ≠ .close) : Moves waits p (.user call) p
  | io (events w status revents notices rc now r) (h : notices.any Notice.closes = false) (hrc : rc ≠ znothing) :
      Moves waits (.running (some events)) (.io w status revents notices rc now r) (.running (askedFor r))
  | ioClosed (events w status revents notices rc now r) (h : notices.any Notice.closes = true ∨ rc = znothing) :
      Moves waits (.running (some events)) (.io w status revents notices rc now r) .closing
  | late (asked now r) : Moves waits (.running asked) (.timer now r) (.running (askedFor r))
  | early (asked now r) : Moves waits (.running asked) (.timer now r) (.running asked)
  | dozed (asked now r) (h : ¬waits) (hr : ¬Good r) : Moves waits (.running asked) (.timer now r) .stalled
  | pollClosed (p a) : Moves waits p (.pollClosed a) p
  | timerClosed : Moves waits .closing .timerClosed .finished

def life (waits : Prop) : System Phase Event where
  init p := p = .fresh
  step := Moves waits

variable {A : Allocator Poll} {waits : Prop} {p : Phase} {s : State} {r : Interest}

theorem Shape.fresh_init : Shape waits .fresh State.init := ⟨rfl, rfl, rfl, rfl, rfl, 0, handles_empty⟩

theorem Phase.close_of_isClosed (h : p.isClosed = true) : p.close = p := by
  cases p with
  | fresh | stalled | running => cases h
  | closing | finished | unused | reopened => rfl

theorem Phase.isClosed_close (p : Phase) : p.close.isClosed = true := by
  cases p <;> rfl

theorem Phase.Polled.watching (hp : p.isClosed = false) (h : p.Polled s.fd s.polls) :
    ∃ asked, Watching asked s.fd s.polls := by
  cases p with
  | fresh => exact ⟨none, h.1 ▸ h.2.watching⟩
  | stalled => exact ⟨none, h⟩
  | running asked => exact ⟨asked, h⟩
  | closing | finished | unused | reopened => cases hp

section Closing

theorem uvCloseTimer_stop {t : Timer} (hp : p = .stalled ∨ ∃ asked, p = .running asked) (h : p.Timed waits t) :
    uvCloseTimer (uvTimerStop t) = .ok .closing := by
  rcases hp with rfl | ⟨asked, rfl⟩
  · rw [show t = .stopped from h]
    rfl
  · obtain ⟨again, -, rfl⟩ := h
    rfl

theorem realClose_open (code : Code) (hp : p = .stalled ∨ ∃ asked, p = .running asked) (h : Shape waits p s) :
    Succeeds (realClose code s) (fun s' => Shape waits .closing s' ∧ s'.fd = s.fd) := by
  have hclosed : p.isClosed = false ∧ p.hasSession = true ∧ p.refs = 1 := by
    rcases hp with rfl | ⟨asked, rfl⟩ <;> exact ⟨rfl, rfl, rfl⟩
  obtain ⟨asked, hpolls⟩ := Phase.Polled.watching hclosed.1 h.polls
  have hrel := releasePoll_idle hpolls
  rw [realClose, h.isClosed, hclosed.1, if_neg Bool.false_ne_true]
  change Succeeds (if s.zhandle.isSome then _ else _) _
  rw [if_pos (h.session.trans hclosed.2.1)]
  refine hrel.bind fun polls hidle => ?_
  change Succeeds (uvCloseTimer (uvTimerStop s.zkTimer) >>= _) _
  rw [uvCloseTimer_stop hp h.timer]
  exact succeeds_ok ⟨⟨rfl, h.refs.trans hclosed.2.2, rfl, rfl, hidle⟩, rfl⟩

theorem realClose_fresh (code : Code) (h : Shape waits .fresh s) :
    Succeeds (realClose code s) (fun s' => Shape waits .unused s' ∧ s'.fd = s.fd) := by
  have htimer : s.zkTimer = .zeroed := h.timer
  have hsession : ¬s.zhandle.isSome = true := by
    rw [h.session]
    exact Bool.false_ne_true
  rw [realClose, h.isClosed]
  change Succeeds (if s.zhandle.isSome then _ else _) _
  rw [if_neg hsession]
  refine succeeds_ok ⟨⟨rfl, h.refs, h.session, ?_, h.polls.2⟩, rfl⟩
  change uvTimerStop s.zkTimer = .zeroed
  rw [htimer]
  rfl

theorem realClose_closed (code : Code) (hc : s.isClosed = true) : realClose code s = .ok s := if_pos hc

theorem realClose_shape (code : Code) (h : Shape waits p s) :
    Succeeds (realClose code s) (fun s' => Shape waits p.close s' ∧ s'.fd = s.fd) := by
  cases p with
  | fresh => exact realClose_fresh code h
  | stalled => exact realClose_open code (.inl rfl) h
  | running asked => exact realClose_open code (.inr ⟨asked, rfl⟩) h
  | closing | finished | unused | reopened =>
      rw [realClose_closed code h.isClosed]
      exact succeeds_ok ⟨h, rfl⟩

theorem Phase.told_cons (c : UserCall) (user : List UserCall) : p.told (c :: user) = (p.told [c]).told user := by
  cases c with
  | request | query => simp [told]
  | close =>
      have hclose : p.close.close = p.close := Phase.close_of_isClosed p.isClosed_close
      simp [told, hclose]

theorem userCall_shape (c : UserCall) (h : Shape waits p s) :
    Succeeds (userCall s c) (fun s' => Shape waits (p.told [c]) s' ∧ s'.fd = s.fd) := by
  have hcalls (calls : List Call) : Shape waits p { s with calls := calls } :=
    ⟨h.isClosed, h.refs, h.session, h.timer, h.polls⟩
  cases c with
  | request => exact succeeds_ok ⟨hcalls _, rfl⟩
  | query =>
      rw [userCall]
      split_ifs
      · exact succeeds_ok ⟨hcalls _, rfl⟩
      · exact succeeds_ok ⟨h, rfl⟩
  | close => exact realClose_shape .user h

theorem userCalls_shape (user : List UserCall) (h : Shape waits p s) :
    Succeeds (user.foldlM userCall s) (fun s' => Shape waits (p.told user) s' ∧ s'.fd = s.fd) := by
  induction user generalizing p s with
  | nil => exact succeeds_ok ⟨h, rfl⟩
  | cons c user ih =>
      rw [List.foldlM_cons]
      refine (userCall_shape c h).bind fun s₁ h₁ => ?_
      rw [Phase.told_cons]
      exact (ih h₁.1).mono fun s₂ h₂ => ⟨h₂.1, h₂.2.trans h₁.2⟩

theorem closeAndListen_shape (code : Code) (user : List UserCall) (h : Shape waits p s) :
    Succeeds (closeAndListen code user s) (fun s' => Shape waits p.close s' ∧ s'.fd = s.fd) := by
  rw [closeAndListen]
  split_ifs with hclosed
  · rw [h.isClosed] at hclosed
    rw [Phase.close_of_isClosed hclosed]
    exact succeeds_ok ⟨h, rfl⟩
  · refine (realClose_shape code h).bind fun s₁ h₁ => ?_
    have htold : p.close.told user = p.close := by
      rw [Phase.told, Phase.close_of_isClosed p.isClosed_close, ite_self]
    exact (userCalls_shape user h₁.1).mono fun s₂ h₂ => ⟨htold ▸ h₂.1, h₂.2.trans h₁.2⟩

/-- The phase after what zookeeper_process has called. -/
def heard (p : Phase) (notices : List Notice) : Phase := if notices.any Notice.closes then p.close else p

theorem heard_cons (n : Notice) (notices : List Notice) :
    heard p (n :: notices) = heard (if Notice.closes n then p.close else p) notices := by
  rw [heard, heard, List.any_cons]
  cases Notice.closes n with
  | false => rfl
  | true =>
      rw [Bool.true_or, if_pos rfl, Phase.close_of_isClosed p.isClosed_close, ite_self]

theorem notify_shape (n : Notice) (h : Shape waits p s) :
    Succeeds (notify s n) (fun s' => Shape waits (if Notice.closes n then p.close else p) s' ∧ s'.fd = s.fd) := by
  have hlisten (user : List UserCall) {s : State} (h : Shape waits p s) :
      Succeeds (user.foldlM userCall s)
        (fun s' => Shape waits (if decide (UserCall.close ∈ user) then p.close else p) s' ∧ s'.fd = s.fd) := by
    simpa only [decide_eq_true_eq, Phase.told] using userCalls_shape user h
  have hemit (e : Emit) (user : List UserCall) : Succeeds (doEmit e user s)
      (fun s' => Shape waits (if decide (UserCall.close ∈ user) then p.close else p) s' ∧ s'.fd = s.fd) := by
    have hemitted : Shape waits p { s with emitted := s.emitted ++ [e] } :=
      ⟨h.isClosed, h.refs, h.session, h.timer, h.polls⟩
    exact hlisten user hemitted
  cases n with
  | completion user => exact hlisten user h
  | watcher type state path user =>
      cases type with
      | session =>
          cases state with
          | expired => exact closeAndListen_shape .expired user h
          | authFailed => exact closeAndListen_shape .authFailed user h
          | connecting | connected => exact hemit _ user
          | other => exact succeeds_ok ⟨h, rfl⟩
      | created | deleted | changed | child | notwatching => exact hemit _ user
      | unknown => exact succeeds_ok ⟨h, rfl⟩

theorem notices_shape (notices : List Notice) (h : Shape waits p s) :
    Succeeds (notices.foldlM notify s) (fun s' => Shape waits (heard p notices) s' ∧ s'.fd = s.fd) := by
  induction notices generalizing p s with
  | nil => exact succeeds_ok ⟨h, rfl⟩
  | cons n notices ih =>
      rw [List.foldlM_cons]
      refine (notify_shape n h).bind fun s₁ h₁ => ?_
      rw [heard_cons]
      exact (ih h₁.1).mono fun s₂ h₂ => ⟨h₂.1, h₂.2.trans h₁.2⟩

end Closing

section Yielding

/-- An object with a session, whose timer may have stopped when it fired. -/
structure Ongoing (waits : Prop) (s : State) : Prop where
  isClosed : s.isClosed = false
  refs : s.refs = 1
  session : s.zhandle.isSome = true
  timer : s.zkTimer = .stopped ∨ ∃ again, (waits → 0 < again) ∧ s.zkTimer = .active again
  polls : ∃ asked, Watching asked s.fd s.polls

theorem yield_closed (now : Nat) (h : Shape waits p s) (hp : p.isClosed = true) : yield A now r s = .ok s :=
  if_pos (h.isClosed.trans hp)

theorem bad_iff : ¬Good r ↔ r.rc ≠ zok ∨ r.fd = -1 := by
  rw [Good, not_and_or, not_not]

theorem Phase.yielded_active (again : Nat) : Phase.yielded r (.active again) = .running (askedFor r) := rfl

theorem Phase.yielded_stopped : Phase.yielded r .stopped = if Good r then .running (askedFor r) else .stalled := rfl

theorem yield_ongoing (now : Nat) (h : Ongoing waits s) (hr : Keeps s.fd r)
    (hwaits : waits → r.rc = zok → r.fd ≠ -1 → 0 < r.tv.millis) :
    Succeeds (yield A now r s) (Shape waits (.yielded r s.zkTimer)) := by
  obtain ⟨asked, hpolls⟩ := h.polls
  rw [yield, h.isClosed, if_neg Bool.false_ne_true]
  refine (repoll_watching hpolls hr).bind fun polls hwatching => ?_
  by_cases hgood : Good r
  · have hgo : ¬(r.rc ≠ zok ∨ r.fd = -1) := not_or.mpr ⟨not_not.mpr hgood.1, hgood.2⟩
    have hstart : uvTimerStart r.tv.millis s.zkTimer = .ok (.active r.tv.millis) ∧
        Phase.yielded r s.zkTimer = .running (askedFor r) := by
      rcases h.timer with ht | ⟨again, -, ht⟩
      · rw [ht, Phase.yielded_stopped, if_pos hgood]
        exact ⟨rfl, rfl⟩
      · rw [ht]
        exact ⟨rfl, rfl⟩
    change Succeeds (if r.rc ≠ zok ∨ r.fd = -1 then _ else uvTimerStart r.tv.millis s.zkTimer >>= _) _
    rw [if_neg hgo, hstart.1, hstart.2]
    exact succeeds_ok ⟨rfl, h.refs, h.session, ⟨_, fun hw => hwaits hw hgood.1 hgood.2, rfl⟩, hwatching⟩
  · have hasked : askedFor r = none := if_neg hgood
    rw [if_pos (bad_iff.mp hgood)]
    rcases h.timer with ht | ⟨again, hpos, ht⟩
    · have hphase : Phase.yielded r s.zkTimer = .stalled := by rw [ht, Phase.yielded_stopped, if_neg hgood]
      rw [hasked] at hwatching
      rw [hphase]
      exact succeeds_ok ⟨rfl, h.refs, h.session, ht, hwatching⟩
    · have hphase : Phase.yielded r s.zkTimer = .running (askedFor r) := by rw [ht, Phase.yielded_active]
      rw [hphase]
      exact succeeds_ok ⟨rfl, h.refs, h.session, ⟨again, hpos, ht⟩, hwatching⟩

end Yielding

section Events

/-- The handle that is active polls for what was asked for. -/
theorem active_of_watching {asked : Option Nat} (h : Watching asked s.fd s.polls) {w : Addr} {q : Poll}
    (hw : s.polls.mem.cells.lookup w = some q) (hq : q.events ≠ none) : asked = q.events := by
  obtain ⟨poll, old, hpolls, hwatch⟩ := h
  have hmem := (hpolls.mem.2 w q).mp hw
  cases poll with
  | none =>
      rw [handleCells, Multiset.zero_add] at hmem
      exact absurd (hpolls.quiet _ hmem) hq
  | some b =>
      rw [handleCells, Multiset.singleton_add, Multiset.mem_cons] at hmem
      rcases hmem with heq | hmem
      · cases heq
        exact hwatch.2.1.symm
      · exact absurd (hpolls.quiet _ hmem) hq

/-- Only the handle of an object that runs can be active. -/
theorem running_of_active (h : Shape waits p s) {w : Addr} {q : Poll} (hw : s.polls.mem.cells.lookup w = some q)
    (hq : q.events ≠ none) : ∃ events, p = .running (some events) := by
  have hidle (hidle : Idle s.polls) : False := by
    obtain ⟨old, hold⟩ := hidle
    have hmem := (hold.mem.2 w q).mp hw
    rw [handleCells, Multiset.zero_add] at hmem
    exact hq (hold.quiet _ hmem)
  cases p with
  | fresh => exact (hidle h.polls.2).elim
  | closing | finished | unused | reopened => exact (hidle h.polls).elim
  | stalled => exact absurd (active_of_watching h.polls hw hq).symm hq
  | running asked =>
      obtain ⟨events, hevents⟩ := Option.ne_none_iff_exists'.mp hq
      exact ⟨events, by rw [active_of_watching h.polls hw hq, hevents]⟩

theorem running_of_timer (h : Shape waits p s) {again : Nat} (ht : s.zkTimer = .active again) : ∃ asked, p = .running asked := by
  have hp := h.timer
  rw [ht] at hp
  cases p with
  | fresh | stalled | closing | finished | unused | reopened => cases hp
  | running asked => exact ⟨asked, rfl⟩

/-- Where the timer is not in use there is no session. -/
theorem session_free (h : Shape waits p s) (ht : TimerFree s) :
    (p = .fresh ∨ p = .finished ∨ p = .unused) ∧ s.zhandle = none := by
  have hp := h.timer
  have hs := h.session
  cases p with
  | fresh => exact ⟨.inl rfl, Option.isSome_eq_false_iff.mp hs |> Option.isNone_iff_eq_none.mp⟩
  | finished => exact ⟨.inr (.inl rfl), Option.isSome_eq_false_iff.mp hs |> Option.isNone_iff_eq_none.mp⟩
  | unused => exact ⟨.inr (.inr rfl), Option.isSome_eq_false_iff.mp hs |> Option.isNone_iff_eq_none.mp⟩
  | stalled | reopened | closing =>
      rw [TimerFree, show s.zkTimer = _ from hp] at ht
      simp at ht
  | running asked =>
      obtain ⟨again, -, hactive⟩ := hp
      simp [TimerFree, hactive] at ht

theorem init_moves {made : Bool} {now : Nat} (h : Shape waits p s) (hen : Enabled s (.init made now r))
    (hwaits : waits → Event.Waits (.init made now r)) :
    Succeeds (realInit A made now r s) (fun s' => ∃ p', Moves waits p (.init made now r) p' ∧ Shape waits p' s') := by
  obtain ⟨htimer, hr⟩ := hen
  obtain ⟨hphase, hnone⟩ := session_free h htimer
  have hinit : uvTimerInit s.zkTimer = .ok .stopped := by
    rcases htimer with ht | ht <;> rw [ht] <;> rfl
  have hcond : ¬s.zhandle.isSome = true := by simp [hnone]
  rw [realInit, if_neg hcond]
  cases made with
  | false =>
      refine succeeds_ok ⟨p, .refused p now r hphase, h.isClosed, h.refs, ?_, h.timer, h.polls⟩
      rw [← h.session, hnone]
  | true =>
      change Succeeds (uvTimerInit s.zkTimer >>= _) _
      rw [hinit]
      change Succeeds (yield A now r _) _
      rcases hphase with rfl | hphase
      · have hstart : Ongoing waits { s with
            zhandle := some s.opened, opened := s.opened + 1, refs := s.refs + 1, zkTimer := .stopped } :=
          ⟨h.isClosed, by rw [h.refs]; rfl, rfl, .inl rfl, none, h.polls.1 ▸ h.polls.2.watching⟩
        refine (yield_ongoing now hstart hr hwaits).mono fun s' hs' => ⟨_, ?_, hs'⟩
        rw [Phase.yielded_stopped]
        split_ifs with hgood
        · exact .opened now r hgood
        · exact .missed now r hgood
      · have hstart : Shape waits .reopened { s with
            zhandle := some s.opened, opened := s.opened + 1, refs := s.refs + 1, zkTimer := .stopped } := by
          rcases hphase with rfl | rfl <;> exact ⟨h.isClosed, by rw [h.refs]; rfl, rfl, rfl, h.polls⟩
        rw [yield_closed now hstart rfl]
        exact succeeds_ok ⟨.reopened, .reopened p now r hphase, hstart⟩

theorem io_moves {w : Addr} {status : Int} {revents : Nat} {notices : List Notice} {rc : Int} {now : Nat} (h : Shape waits p s)
    (hen : Enabled s (.io w status revents notices rc now r))
    (hwaits : waits → Event.Waits (.io w status revents notices rc now r)) :
    Succeeds (zkIoCb A w status revents notices rc now r s)
      (fun s' => ∃ p', Moves waits p (.io w status revents notices rc now r) p' ∧ Shape waits p' s') := by
  obtain ⟨⟨q, hq, hactive⟩, hr⟩ := hen
  obtain ⟨events, rfl⟩ := running_of_active h hq hactive
  rw [zkIoCb, load_succeeds hq]
  have hstart : Shape waits (.running (some events))
      { s with calls := s.calls ++ [.process s.zhandle (processEvents status revents)] } :=
    ⟨h.isClosed, h.refs, h.session, h.timer, h.polls⟩
  refine (notices_shape notices hstart).bind fun s₁ h₁ => ?_
  obtain ⟨h₁, hfd⟩ := h₁
  change s₁.fd = s.fd at hfd
  by_cases hrc : rc = znothing
  · rw [if_pos hrc]
    refine (realClose_shape .expired h₁).mono fun s₂ h₂ => ⟨.closing, .ioClosed _ _ _ _ _ _ _ _ (.inr hrc), ?_⟩
    have hclose : (heard (.running (some events)) notices).close = .closing := by
      rw [heard]
      split_ifs <;> rfl
    exact hclose ▸ h₂.1
  · rw [if_neg hrc]
    cases hany : notices.any Notice.closes with
    | true =>
        have hheard : heard (.running (some events)) notices = .closing := by rw [heard, hany]; rfl
        rw [hheard] at h₁
        rw [yield_closed now h₁ rfl]
        exact succeeds_ok ⟨.closing, .ioClosed _ _ _ _ _ _ _ _ (.inl hany), h₁⟩
    | false =>
        have hheard : heard (.running (some events)) notices = .running (some events) := by rw [heard, hany]; rfl
        rw [hheard] at h₁
        obtain ⟨again, hpos, htimer⟩ := h₁.timer
        have hgoing : Ongoing waits s₁ := ⟨h₁.isClosed, h₁.refs, h₁.session, .inr ⟨again, hpos, htimer⟩, _, h₁.polls⟩
        refine (yield_ongoing now hgoing (hfd ▸ hr) hwaits).mono fun s₂ h₂ => ?_
        rw [htimer, Phase.yielded_active] at h₂
        exact ⟨_, .io _ _ _ _ _ _ _ _ hany hrc, h₂⟩

theorem timer_moves {now : Nat} (h : Shape waits p s) (hen : Enabled s (.timer now r))
    (hwaits : waits → Event.Waits (.timer now r)) :
    Succeeds (zkTimerCb A now r { s with zkTimer := fire s.zkTimer })
      (fun s' => ∃ p', Moves waits p (.timer now r) p' ∧ Shape waits p' s') := by
  obtain ⟨⟨again, hactive⟩, hr⟩ := hen
  obtain ⟨asked, rfl⟩ := running_of_timer h hactive
  obtain ⟨again', hpos, ht⟩ := h.timer
  cases hactive.symm.trans ht
  have hfire : fire s.zkTimer = .stopped ∧ ¬waits ∨ fire s.zkTimer = .active again := by
    rw [hactive]
    cases again with
    | zero => exact .inl ⟨rfl, fun hw => Nat.lt_irrefl 0 (hpos hw)⟩
    | succ n => exact .inr rfl
  rw [zkTimerCb]
  split_ifs with hlate
  · have hstart : Ongoing waits { s with zkTimer := fire s.zkTimer } :=
      ⟨h.isClosed, h.refs, h.session, hfire.imp And.left fun heq => ⟨again, hpos, heq⟩, asked, h.polls⟩
    refine (yield_ongoing now hstart hr hwaits).mono fun s' hs' => ⟨_, ?_, hs'⟩
    rcases hfire with ⟨heq, hw⟩ | heq
    · rw [heq, Phase.yielded_stopped]
      split_ifs with hgood
      · exact .late asked now r
      · exact .dozed asked now r hw hgood
    · rw [heq, Phase.yielded_active]
      exact .late asked now r
  · have hrestart : uvTimerStart (timeout s - now + 1) (fire s.zkTimer) = .ok (.active (timeout s - now + 1)) := by
      rcases hfire with ⟨heq, -⟩ | heq <;> rw [heq] <;> rfl
    change Succeeds (uvTimerStart (timeout s - now + 1) (fire s.zkTimer) >>= _) _
    rw [hrestart]
    exact succeeds_ok ⟨_, .early asked now r, h.isClosed, h.refs, h.session, ⟨_, fun _ => Nat.succ_pos _, rfl⟩, h.polls⟩

theorem pollClosed_moves {a : Addr} (h : Shape waits p s) (hen : Enabled s (.pollClosed a)) :
    Succeeds (Event.exec A s (.pollClosed a)) (fun s' => ∃ p', Moves waits p (.pollClosed a) p' ∧ Shape waits p' s') := by
  have hidle (hidle : Idle s.polls) : Succeeds (deleteOnClose a s.polls) Idle := by
    obtain ⟨old, hold⟩ := hidle
    exact (deleteOnClose_succeeds hold hen).mono fun _ ⟨old', _, _, hold'⟩ => ⟨old', hold'⟩
  have hpolls : Succeeds (deleteOnClose a s.polls) (p.Polled s.fd) := by
    cases p with
    | fresh => exact (hidle h.polls.2).mono fun _ hpolls => ⟨h.polls.1, hpolls⟩
    | closing | finished | unused | reopened => exact hidle h.polls
    | stalled | running asked =>
        obtain ⟨poll, old, hold, hwatch⟩ := h.polls
        exact (deleteOnClose_succeeds hold hen).mono fun _ ⟨old', _, _, hold'⟩ => ⟨poll, old', hold', hwatch⟩
  exact hpolls.bind fun polls hp => succeeds_ok ⟨p, .pollClosed p a, h.isClosed, h.refs, h.session, h.timer, hp⟩

theorem timerClosed_moves (h : Shape waits p s) (hen : Enabled s .timerClosed) :
    Succeeds (Program.timerClosed s) (fun s' => ∃ p', Moves waits p .timerClosed p' ∧ Shape waits p' s') := by
  have ht := h.timer
  rw [show s.zkTimer = .closing from hen] at ht
  cases p with
  | fresh | stalled | finished | unused | reopened => cases ht
  | running asked =>
      obtain ⟨again, -, heq⟩ := ht
      cases heq
  | closing =>
      have hrefs : s.refs = 1 := h.refs
      rw [Program.timerClosed, if_neg (by rw [hrefs]; decide)]
      exact succeeds_ok ⟨.finished, .timerClosed, h.isClosed, by rw [hrefs]; rfl, h.session, rfl, h.polls⟩

theorem user_moves (c : UserCall) (h : Shape waits p s) :
    Succeeds (userCall s c) (fun s' => ∃ p', Moves waits p (.user c) p' ∧ Shape waits p' s') := by
  refine (userCall_shape c h).mono fun s' hs' => ⟨_, ?_, hs'.1⟩
  cases c with
  | request => exact .ask p _ (by decide)
  | query => exact .ask p _ (by decide)
  | close => exact .close p

/-- What an event does in each phase. None of them can fail. -/
theorem exec_moves (e : Event) (h : Shape waits p s) (hen : Enabled s e) (hwaits : waits → e.Waits) :
    Succeeds (e.exec A s) (fun s' => ∃ p', Moves waits p e p' ∧ Shape waits p' s') := by
  cases e with
  | init made now r => exact init_moves h hen hwaits
  | user c => exact user_moves c h
  | io w status revents notices rc now r => exact io_moves h hen hwaits
  | timer now r => exact timer_moves h hen hwaits
  | pollClosed a => exact pollClosed_moves h hen
  | timerClosed => exact timerClosed_moves h hen

end Events

end StudyNotes.NodeZk.Life
