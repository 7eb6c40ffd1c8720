import StudyNotes.NodeZk.Life

namespace StudyNotes.NodeZk.Lifecycle

open Heap.Program Heap.Triple Heap.Outcome Systems.Transition Systems.Refinement Program Polling Life

variable {A : Allocator Poll} {waits : Prop} {p : Phase} {s s' : State} {e : Event}

section Refinement

/-- The events that the handle polls for. -/
def polledNow (polls : Polls) : Option Nat :=
  match polls.mem.cells.lookup polls.zkIoPollHdl with
  | some q => q.events
  | none => none

def phaseOf (s : State) : Phase :=
  if s.isClosed then
    if s.zhandle.isSome then .reopened
    else
      match s.zkTimer with
      | .closing => .closing
      | .closed => .finished
      | _ => .unused
  else if s.zhandle.isSome then
    match s.zkTimer with
    | .active _ => .running (polledNow s.polls)
    | _ => .stalled
  else .fresh

theorem polledNow_of_watching {asked : Option Nat} {fd : Int} {polls : Polls} (h : Watching asked fd polls) :
    polledNow polls = asked := by
  obtain ⟨poll, old, hpolls, hwatch⟩ := h
  rw [polledNow]
  cases poll with
  | some b => rw [hpolls.cells.lookup (Multiset.mem_cons_self _ _), ← hwatch.2.1]
  | none =>
      rw [hwatch.2]
      cases hl : polls.mem.cells.lookup polls.zkIoPollHdl with
      | none => rfl
      | some q =>
          have hmem := (hpolls.mem.2 _ q).mp hl
          rw [handleCells, Multiset.zero_add] at hmem
          exact hpolls.quiet _ hmem

theorem phaseOf_eq (h : Shape waits p s) : phaseOf s = p := by
  have ht := h.timer
  rw [phaseOf, h.isClosed, h.session]
  cases p with
  | fresh | reopened => rfl
  | stalled | closing | finished | unused =>
      rw [show s.zkTimer = _ from ht]
      rfl
  | running asked =>
      obtain ⟨again, -, ht⟩ := ht
      rw [ht, polledNow_of_watching h.polls]
      rfl

theorem step_moves (h : Shape waits p s) (hs : (system A waits).step s e s') : ∃ p', Moves waits p e p' ∧ Shape waits p' s' :=
  (exec_moves e h hs.1 hs.2.1).of_eq_ok hs.2.2

theorem shape_phaseOf (h : Shape waits p s) : Shape waits (phaseOf s) s := by rwa [phaseOf_eq h]

theorem simulates_life : Simulates (system A waits) (life waits) phaseOf some (fun s => Shape waits (phaseOf s) s) where
  init s hs := by
    have hfresh : Shape waits .fresh State.init := Shape.fresh_init
    rw [show s = State.init from hs]
    exact ⟨shape_phaseOf hfresh, phaseOf_eq hfresh⟩
  keep s e s' h hs := by
    obtain ⟨p', -, h'⟩ := step_moves h hs
    exact shape_phaseOf h'
  silent s e s' h hs he := by cases he
  visible s e s' d h hs hd := by
    cases hd
    obtain ⟨p', hmoves, h'⟩ := step_moves h hs
    rw [phaseOf_eq h']
    exact hmoves

theorem shape_of_run {tr : List (State × Event)} (h : Run (system A waits) tr s) : Shape waits (phaseOf s) s :=
  simulates_life.reachable h.reachable

theorem Shape.weaken (h : Shape waits p s) : Shape False p s := by
  refine ⟨h.isClosed, h.refs, h.session, ?_, h.polls⟩
  have ht := h.timer
  cases p with
  | running asked =>
      obtain ⟨again, -, ht⟩ := ht
      exact ⟨again, False.elim, ht⟩
  | fresh | stalled | closing | finished | unused | reopened => exact ht

/-- A session that is made while the timer is in use makes init fail. -/
theorem init_timer_in_use (hs : ¬TimerFree s) (now : Nat) (r : Interest) :
    realInit A true now r s = .error .assertion := by
  have hinit {t : Timer} (ht : ¬(t = .zeroed ∨ t = .closed)) :
      uvTimerInit t = .error .assertion ∧ uvTimerInit (uvTimerStop t) = .error .assertion := by
    cases t with
    | zeroed | closed => simp at ht
    | stopped | active | closing => exact ⟨rfl, rfl⟩
  obtain ⟨hplain, hstopped⟩ := hinit hs
  by_cases hz : s.zhandle.isSome = true
  · rw [realInit, if_pos hz]
    change uvTimerInit (uvTimerStop s.zkTimer) >>= _ = _
    rw [hstopped]
    rfl
  · rw [realInit, if_neg hz]
    change uvTimerInit s.zkTimer >>= _ = _
    rw [hplain]
    rfl

theorem run_init (waits : Prop) (made : Interest) (hr : Keeps (-1) made) (hwaits : waits → Event.Waits (.init true 0 made)) :
    ∃ s, Run (system bump waits) [(State.init, .init true 0 made)] s ∧ Shape waits (.yielded made .stopped) s := by
  have hen : Enabled State.init (.init true 0 made) := ⟨.inl rfl, hr⟩
  obtain ⟨s, hs, p', hmoves, hshape⟩ := exec_moves (A := bump) _ Shape.fresh_init hen hwaits
  refine ⟨s, (Run.start rfl).next ⟨hen, hwaits, hs⟩, ?_⟩
  rw [Phase.yielded_stopped]
  cases hmoves with
  | opened _ _ hgood =>
      rw [if_pos hgood]
      exact hshape
  | missed _ _ hbad =>
      rw [if_neg hbad]
      exact hshape
  | reopened _ _ _ hp => simp at hp

end Refinement

section Stalling

/-- The loop has nothing to call for the object but callbacks of old handles, and nothing
else will come but calls of the user. -/
def Asleep (s : State) : Prop := ∀ e, Enabled s e → (∃ c, e = .user c) ∨ ∃ a, e = .pollClosed a

/-- The results of the first call of zookeeper_interest for each session. -/
def firstIn : Event → List Interest
  | .init true _ r => [r]
  | _ => []

theorem along_shadow {α : Type} (f : Event → List α) (tr : List (State × Event)) :
    along f (shadow phaseOf some tr) = along f tr := by
  simp [along, shadow, List.flatMap_map]

/-- What the first results were in a life that has not been closed. -/
def Begun : Phase → List Interest → Prop
  | .fresh, rs => rs = []
  | .stalled, rs => ∃ r, rs = [r] ∧ ¬Good r
  | .running _, rs => ∃ r, rs = [r] ∧ Good r
  | _, _ => True

theorem begun_step {p' : Phase} {rs : List Interest} (h : Begun p rs) (hm : Moves True p e p') : Begun p' (rs ++ firstIn e) := by
  cases hm with
  | refused | ask | io | late | early | pollClosed =>
      change Begun _ (rs ++ [])
      rw [List.append_nil]
      exact h
  | opened now r hgood =>
      rw [show rs = [] from h]
      exact ⟨r, rfl, hgood⟩
  | missed now r hbad =>
      rw [show rs = [] from h]
      exact ⟨r, rfl, hbad⟩
  | close =>
      cases p with
      | fresh | stalled | running | closing | finished | unused | reopened => trivial
  | dozed _ _ _ hwaits => exact absurd trivial hwaits
  | reopened | ioClosed | timerClosed => trivial

theorem begun_run {tr : List (Phase × Event)} (h : Run (life True) tr p) : Begun p (along firstIn tr) := by
  refine Run.induct (I := fun tr p => Begun p (along firstIn tr)) (fun p hp => ?_) (fun tr p e p' _ hb hm => ?_) h
  · rw [show p = .fresh from hp]
    rfl
  · rw [along_concat]
    exact begun_step hb hm

theorem asleep_stalled (h : Shape waits .stalled s) : Asleep s := by
  have ht : s.zkTimer = .stopped := h.timer
  intro e hen
  cases e with
  | user c => exact .inl ⟨c, rfl⟩
  | pollClosed a => exact .inr ⟨a, rfl⟩
  | init made now r =>
      rcases hen.1 with h0 | h0 <;> cases ht.symm.trans h0
  | io w status revents notices rc now r =>
      obtain ⟨⟨q, hq, hactive⟩, -⟩ := hen
      obtain ⟨events, hp⟩ := running_of_active h hq hactive
      cases hp
  | timer now r =>
      obtain ⟨⟨again, h0⟩, -⟩ := hen
      cases ht.symm.trans h0
  | timerClosed => cases ht.symm.trans hen

theorem not_asleep_running {asked : Option Nat} (h : Shape waits (.running asked) s) : ¬Asleep s := by
  intro hasleep
  obtain ⟨again, -, ht⟩ := h.timer
  have hkeeps : Keeps s.fd ⟨znothing, s.fd, 0, ⟨0, 0⟩⟩ := fun _ => .inl rfl
  rcases hasleep (.timer 0 ⟨znothing, s.fd, 0, ⟨0, 0⟩⟩) ⟨⟨again, ht⟩, hkeeps⟩ with ⟨c, h0⟩ | ⟨a, h0⟩ <;> cases h0

end Stalling

section Releasing

/-- A call that the user has asked for. -/
def IsAsked : Call → Prop
  | .request _ | .query _ => True
  | .interest _ | .process _ _ | .close _ => False

/-- A call before the first session is closed. -/
def IsWork : Call → Prop
  | .interest z | .process z _ => z = some 0
  | .request z | .query z => z = none ∨ z = some 0
  | .close _ => False

/-- A call after the first session was closed. -/
def IsLate : Call → Prop
  | .request z | .query z => z ≠ some 0
  | .interest _ | .process _ _ | .close _ => False

def isClosedEmit : Emit → Bool
  | .closed _ => true
  | _ => false

/-- How often the user was told that the session is closed. -/
def closedCount (s : State) : Nat := s.emitted.countP isClosedEmit

/-- The object was closed before it had a session. -/
def NeverOpen (calls : List Call) (told : Nat) : Prop := (∀ c ∈ calls, IsAsked c) ∧ told = 0

/-- The first session was closed once, and no function of the library got it afterwards. -/
def ClosedOnce (calls : List Call) (told : Nat) : Prop :=
  ∃ work late, (∀ c ∈ work, IsWork c) ∧ (∀ c ∈ late, IsLate c) ∧ calls = work ++ .close (some 0) :: late ∧ told = 1

/-- What the library and the user have seen. -/
structure Book (isClosed : Bool) (zhandle : Option Nat) (opened : Nat) (calls : List Call) (told : Nat) : Prop where
  fresh : isClosed = false → zhandle = none → opened = 0 ∧ ∀ c ∈ calls, IsAsked c
  first : isClosed = false → ∀ k, zhandle = some k → k = 0 ∧ 0 < opened
  work : isClosed = false → (∀ c ∈ calls, IsWork c) ∧ told = 0
  ended : isClosed = true → NeverOpen calls told ∨ ClosedOnce calls told ∧ zhandle ≠ some 0 ∧ 0 < opened

def Booked (s : State) : Prop := Book s.isClosed s.zhandle s.opened s.calls (closedCount s)

section Entries

variable {isClosed : Bool} {zhandle : Option Nat} {opened told : Nat} {calls : List Call}

theorem Book.call (h : Book false zhandle opened calls told) (hs : zhandle.isSome = true) {c : Call}
    (hw : zhandle = some 0 → IsWork c) : Book false zhandle opened (calls ++ [c]) told := by
  obtain ⟨k, hk⟩ := Option.isSome_iff_exists.mp hs
  have hzero : zhandle = some 0 := by rw [hk, (h.first rfl k hk).1]
  refine ⟨fun _ hnone => absurd hnone (by rw [hzero]; nofun), h.first, fun _ => ⟨?_, (h.work rfl).2⟩, nofun⟩
  intro c' hc'
  rcases List.mem_append.mp hc' with hmem | hmem
  · exact (h.work rfl).1 c' hmem
  · rw [List.mem_singleton.mp hmem]
    exact hw hzero

/-- A call that the user asks for gets the session that the object has. -/
theorem Book.ask (h : Book isClosed zhandle opened calls told) {c : Call} (hc : c = .request zhandle ∨ c = .query zhandle) :
    Book isClosed zhandle opened (calls ++ [c]) told := by
  have hasked : IsAsked c := by rcases hc with rfl | rfl <;> trivial
  have hwork (hz : zhandle = none ∨ zhandle = some 0) : IsWork c := by rcases hc with rfl | rfl <;> exact hz
  have hlate (hz : zhandle ≠ some 0) : IsLate c := by rcases hc with rfl | rfl <;> exact hz
  have hall {P : Call → Prop} {calls : List Call} (hcalls : ∀ c ∈ calls, P c) (hc : P c) : ∀ x ∈ calls ++ [c], P x := by
    simpa [or_imp, forall_and] using ⟨hcalls, hc⟩
  refine ⟨fun hopen hz => ?_, h.first, fun hopen => ?_, fun hclosed => ?_⟩
  · exact ⟨(h.fresh hopen hz).1, hall (h.fresh hopen hz).2 hasked⟩
  · refine ⟨hall (h.work hopen).1 (hwork ?_), (h.work hopen).2⟩
    cases hz : zhandle with
    | none => exact .inl rfl
    | some k => exact .inr (by rw [(h.first hopen k hz).1])
  · rcases h.ended hclosed with ⟨hcalls, htold⟩ | ⟨⟨work, late, hw, hl, heq, htold⟩, hz, hopened⟩
    · exact .inl ⟨hall hcalls hasked, htold⟩
    · refine .inr ⟨⟨work, late ++ [c], hw, hall hl (hlate hz), ?_, htold⟩, hz, hopened⟩
      rw [heq, List.append_assoc, List.cons_append]

/-- A session that is made gets the next number. -/
theorem Book.make (h : Book isClosed none opened calls told) : Book isClosed (some opened) (opened + 1) calls told := by
  refine ⟨fun _ h0 => absurd h0 (Option.some_ne_none _), fun hopen k hk => ?_, h.work, fun hclosed => ?_⟩
  · rw [← Option.some.inj hk]
    exact ⟨(h.fresh hopen rfl).1, Nat.succ_pos _⟩
  · refine (h.ended hclosed).imp_right fun ⟨honce, _, hopened⟩ => ⟨honce, ?_, Nat.succ_pos _⟩
    intro heq
    rw [Option.some.inj heq] at hopened
    exact absurd hopened (Nat.lt_irrefl 0)

/-- Without a session nothing has to be closed. -/
theorem Book.shut (h : Book false none opened calls told) : Book true none opened calls told :=
  ⟨nofun, nofun, nofun, fun _ => .inl ⟨(h.fresh rfl rfl).2, (h.work rfl).2⟩⟩

theorem Book.close {k : Nat} (h : Book false (some k) opened calls told) :
    Book true none opened (calls ++ [.close (some k)]) (told + 1) := by
  obtain ⟨rfl, hopened⟩ := h.first rfl k rfl
  obtain ⟨hwork, htold⟩ := h.work rfl
  exact ⟨nofun, nofun, nofun, fun _ => .inr ⟨⟨calls, [], hwork, nofun, rfl, by rw [htold]⟩, nofun, hopened⟩⟩

end Entries

theorem booked_init : Booked State.init := ⟨fun _ _ => ⟨rfl, nofun⟩, nofun, fun _ => ⟨nofun, rfl⟩, nofun⟩

theorem closedCount_emit (em : Emit) :
    closedCount { s with emitted := s.emitted ++ [em] } = closedCount s + if isClosedEmit em then 1 else 0 := by
  rw [closedCount, closedCount, List.countP_append, List.countP_singleton]

theorem booked_realClose {code : Code} (h : Booked s) (hs : realClose code s = .ok s') : Booked s' := by
  cases hc : s.isClosed with
  | true =>
      rw [realClose_closed code hc] at hs
      cases hs
      exact h
  | false =>
      rw [Booked, hc] at h
      rw [realClose, hc] at hs
      change (if s.zhandle.isSome then _ else _) = _ at hs
      cases hz : s.zhandle with
      | none =>
          rw [hz] at h hs
          cases hs
          exact h.shut
      | some k =>
          rw [hz] at h hs
          obtain ⟨polls, -, hs⟩ := eq_ok_of_bind hs
          obtain ⟨t, -, hs⟩ := eq_ok_of_bind hs
          cases hs
          have hcount : closedCount { s with emitted := s.emitted ++ [.closed code] } = closedCount s + 1 := closedCount_emit _
          have hbook := h.close
          rw [← hcount] at hbook
          exact hbook

theorem booked_userCall {c : UserCall} (h : Booked s) (hs : userCall s c = .ok s') : Booked s' := by
  cases c with
  | request =>
      cases hs
      exact h.ask (.inl rfl)
  | query =>
      rw [userCall] at hs
      split_ifs at hs
      · cases hs
        exact h.ask (.inr rfl)
      · cases hs
        exact h
  | close => exact booked_realClose h hs

/-- A fold of operations that keep the book. -/
theorem booked_foldlM {α : Type} {f : State → α → Except Fault State}
    (hf : ∀ {s s' : State} {x : α}, Booked s → f s x = .ok s' → Booked s') {xs : List α} (h : Booked s)
    (hs : xs.foldlM f s = .ok s') : Booked s' := by
  induction xs generalizing s with
  | nil =>
      cases hs
      exact h
  | cons x xs ih =>
      rw [List.foldlM_cons] at hs
      obtain ⟨s₁, h₁, hs⟩ := eq_ok_of_bind hs
      exact ih (hf h h₁) hs

theorem booked_doEmit {em : Emit} {user : List UserCall} (h : Booked s) (he : isClosedEmit em = false)
    (hs : doEmit em user s = .ok s') : Booked s' := by
  refine booked_foldlM booked_userCall ?_ hs
  rw [Booked, closedCount_emit, he]
  exact h

theorem booked_closeAndListen {code : Code} {user : List UserCall} (h : Booked s)
    (hs : closeAndListen code user s = .ok s') : Booked s' := by
  rw [closeAndListen] at hs
  split_ifs at hs
  · cases hs
    exact h
  · obtain ⟨s₁, h₁, hs⟩ := eq_ok_of_bind hs
    exact booked_foldlM booked_userCall (booked_realClose h h₁) hs

theorem booked_notify {n : Notice} (h : Booked s) (hs : notify s n = .ok s') : Booked s' := by
  cases n with
  | completion user => exact booked_foldlM booked_userCall h hs
  | watcher type state path user =>
      cases type with
      | session =>
          cases state with
          | expired | authFailed => exact booked_closeAndListen h hs
          | connecting | connected => exact booked_doEmit h rfl hs
          | other =>
              cases hs
              exact h
      | created | deleted | changed | child | notwatching => exact booked_doEmit h rfl hs
      | unknown =>
          cases hs
          exact h

theorem booked_yield {now : Nat} {r : Interest} (h : Booked s) (hsession : s.isClosed = false → s.zhandle.isSome = true)
    (hs : yield A now r s = .ok s') : Booked s' := by
  cases hc : s.isClosed with
  | true =>
      rw [yield, if_pos hc] at hs
      cases hs
      exact h
  | false =>
      rw [Booked, hc] at h
      have hcall : Book s.isClosed s.zhandle s.opened (s.calls ++ [.interest s.zhandle]) (closedCount s) :=
        hc ▸ h.call (hsession hc) id
      rw [yield, hc, if_neg Bool.false_ne_true] at hs
      obtain ⟨polls, -, hs⟩ := eq_ok_of_bind hs
      split_ifs at hs with hstop
      · cases hs
        exact hc ▸ hcall
      · obtain ⟨t, -, hs⟩ := eq_ok_of_bind hs
        cases hs
        exact hc ▸ hcall

theorem booked_init_event {made : Bool} {now : Nat} {r : Interest} (h : Shape waits p s) (hb : Booked s)
    (hen : Enabled s (.init made now r)) (hs : realInit A made now r s = .ok s') : Booked s' := by
  obtain ⟨hphase, hnone⟩ := session_free h hen.1
  have hcond : ¬s.zhandle.isSome = true := by simp [hnone]
  rw [Booked, hnone] at hb
  rw [realInit, if_neg hcond] at hs
  cases made with
  | false =>
      cases hs
      exact hb
  | true =>
      obtain ⟨t, -, hs⟩ := eq_ok_of_bind hs
      exact booked_yield (s := { s with
        zhandle := some s.opened, opened := s.opened + 1, refs := s.refs + 1, zkTimer := t }) hb.make (fun _ => rfl) hs

theorem booked_io {w : Addr} {status : Int} {revents : Nat} {notices : List Notice} {rc : Int} {now : Nat} {r : Interest}
    (h : Shape waits p s) (hb : Booked s) (hen : Enabled s (.io w status revents notices rc now r))
    (hs : zkIoCb A w status revents notices rc now r s = .ok s') : Booked s' := by
  obtain ⟨⟨q, hq, hactive⟩, -⟩ := hen
  obtain ⟨events, rfl⟩ := running_of_active h hq hactive
  rw [zkIoCb, load_succeeds hq] at hs
  obtain ⟨_, hload, hs⟩ := eq_ok_of_bind hs
  cases hload
  obtain ⟨s₁, h₁, hs⟩ := eq_ok_of_bind hs
  have hstart : Shape waits (.running (some events))
      { s with calls := s.calls ++ [.process s.zhandle (processEvents status revents)] } :=
    ⟨h.isClosed, h.refs, h.session, h.timer, h.polls⟩
  have hshape := ((notices_shape notices hstart).of_eq_ok h₁).1
  have hopen : s.isClosed = false := h.isClosed
  have hcall : Booked { s with calls := s.calls ++ [.process s.zhandle (processEvents status revents)] } := by
    rw [Booked, hopen] at hb ⊢
    exact hb.call h.session id
  have hbook : Booked s₁ := booked_foldlM booked_notify hcall h₁
  split_ifs at hs with hrc
  · exact booked_realClose hbook hs
  · refine booked_yield hbook (fun hopen => ?_) hs
    rw [hshape.isClosed] at hopen
    rw [hshape.session]
    generalize hp : heard (.running (some events)) notices = p at hopen
    rw [heard] at hp
    split_ifs at hp with hany
    · rw [← hp] at hopen
      cases hopen
    · rw [← hp]
      rfl

theorem booked_timer {now : Nat} {r : Interest} (h : Shape waits p s) (hb : Booked s) (hen : Enabled s (.timer now r))
    (hs : zkTimerCb A now r { s with zkTimer := fire s.zkTimer } = .ok s') : Booked s' := by
  obtain ⟨⟨again, hactive⟩, -⟩ := hen
  obtain ⟨asked, rfl⟩ := running_of_timer h hactive
  rw [zkTimerCb] at hs
  split_ifs at hs with hlate
  · exact booked_yield (s := { s with zkTimer := fire s.zkTimer }) hb (fun _ => h.session) hs
  · obtain ⟨t, -, hs⟩ := eq_ok_of_bind hs
    cases hs
    exact hb

theorem booked_step (h : Shape waits p s) (hb : Booked s) (hs : (system A waits).step s e s') : Booked s' := by
  obtain ⟨hen, -, hs⟩ := hs
  cases e with
  | init made now r => exact booked_init_event h hb hen hs
  | user c => exact booked_userCall hb hs
  | io w status revents notices rc now r => exact booked_io h hb hen hs
  | timer now r => exact booked_timer h hb hen hs
  | pollClosed a =>
      obtain ⟨polls, -, hs⟩ := eq_ok_of_bind hs
      cases hs
      exact hb
  | timerClosed =>
      change (if s.refs = 0 then _ else _) = _ at hs
      split_ifs at hs
      cases hs
      exact hb

theorem booked_run {tr : List (State × Event)} (h : Run (system A waits) tr s) : Booked s := by
  refine Run.induct (I := fun _ s => Booked s) (fun s hs => ?_) (fun tr s e s' hr hb hs => ?_) h
  · rw [show s = State.init from hs]
    exact booked_init
  · exact booked_step (shape_of_run hr) hb hs

/-- The callbacks of closed handles. -/
def IsCleanup : Event → Prop
  | .pollClosed _ | .timerClosed => True
  | _ => False

def Gone (s : State) : Prop := s.isClosed = true ∧ s.zhandle = none

/-- No callback is left. -/
def Cleared (s : State) : Prop := s.refs = 0 ∧ s.polls.closing = []

/-- The callbacks that are left. -/
def left (s : State) : Nat := s.polls.closing.length + s.refs

theorem gone_phase (h : Shape waits p s) (hg : Gone s) : p = .closing ∨ p = .finished ∨ p = .unused := by
  have hc := h.isClosed
  have hs := h.session
  rw [hg.1] at hc
  rw [hg.2] at hs
  cases p with
  | fresh | stalled | running => cases hc
  | reopened => cases hs
  | closing => exact .inl rfl
  | finished => exact .inr (.inl rfl)
  | unused => exact .inr (.inr rfl)

theorem cleanup_step (h : Shape waits p s) (hg : Gone s) (hleft : ¬Cleared s) :
    ∃ e s', (system A waits).step s e s' ∧ IsCleanup e ∧ Gone s' ∧ left s' < left s := by
  cases hl : s.polls.closing with
  | cons a rest =>
      have ha : a ∈ s.polls.closing := by rw [hl]; exact List.mem_cons_self
      obtain ⟨s', hs', -⟩ := exec_moves (A := A) (.pollClosed a) h ha (fun _ => trivial)
      refine ⟨.pollClosed a, s', ⟨ha, fun _ => trivial, hs'⟩, trivial, ?_⟩
      obtain ⟨polls, hpolls, hs'⟩ := eq_ok_of_bind hs'
      obtain ⟨r, hr, hpolls⟩ := eq_ok_of_bind hpolls
      obtain ⟨m, -, hr⟩ := eq_ok_of_bind hr
      cases hr
      cases hpolls
      cases hs'
      refine ⟨hg, ?_⟩
      change (s.polls.closing.erase a).length + s.refs < s.polls.closing.length + s.refs
      rw [List.length_erase_of_mem ha]
      have := List.length_pos_of_mem ha
      omega
  | nil =>
      have hrefs : s.refs ≠ 0 := fun h0 => hleft ⟨h0, hl⟩
      rcases gone_phase h hg with rfl | rfl | rfl
      · have hen : s.zkTimer = .closing := h.timer
        have hexec : Program.timerClosed s = .ok { s with zkTimer := .closed, refs := s.refs - 1 } := if_neg hrefs
        refine ⟨.timerClosed, _, ⟨hen, fun _ => trivial, hexec⟩, trivial, hg, ?_⟩
        change s.polls.closing.length + (s.refs - 1) < s.polls.closing.length + s.refs
        omega
      · exact absurd h.refs hrefs
      · exact absurd h.refs hrefs

theorem cells_empty (h : Idle s.polls) (hl : s.polls.closing = []) : s.polls.mem.cells = ∅ := by
  obtain ⟨old, hold⟩ := h
  have hzero : old = 0 := by
    have hc := hold.closing
    rw [hl] at hc
    exact Multiset.map_eq_zero.mp hc.symm
  have hm := hold.mem
  rw [hzero] at hm
  exact holds_cells_eq holds_empty hm

theorem released {tr : List (State × Event)} (h : Run (system A waits) tr s) (hg : Gone s) :
    ∃ tr' s', Run (system A waits) (tr ++ tr') s' ∧ (∀ q ∈ tr', IsCleanup q.2) ∧ s'.refs = 0 ∧ s'.polls.mem.cells = ∅ := by
  have hstep (u : State) (hu : Reachable (system A waits) u) (hgone : Gone u) (hleft : ¬Cleared u) :
      ∃ e u', (system A waits).step u e u' ∧ IsCleanup e ∧ Gone u' ∧ left u' < left u := by
    obtain ⟨_, hu⟩ := hu
    exact cleanup_step (shape_of_run hu) hgone hleft
  obtain ⟨tr', s', hrun, hgone, ⟨hrefs, hl⟩, hall⟩ := exists_goal left hstep h hg
  refine ⟨tr', s', hrun, hall, hrefs, cells_empty ?_ hl⟩
  have hshape := shape_of_run hrun
  rcases gone_phase hshape hgone with hp | hp | hp <;> rw [hp] at hshape <;> exact hshape.polls

/-- A session that was opened after close. -/
theorem reopened_step (h : Shape waits .reopened s) (hs : (system A waits).step s e s') :
    s'.isClosed = true ∧ s'.zhandle = s.zhandle ∧ s'.refs = 1 ∧ ∃ asked, s'.calls = s.calls ++ asked ∧ ∀ c ∈ asked, IsAsked c := by
  obtain ⟨p', hm, -⟩ := step_moves h hs
  obtain ⟨hen, -, hs⟩ := hs
  have hsame : s.calls = s.calls ++ [] := (List.append_nil _).symm
  cases hm with
  | refused _ _ _ hp => simp at hp
  | reopened _ _ _ hp => simp at hp
  | close =>
      rw [show Event.exec A s (.user .close) = .ok s from realClose_closed .user h.isClosed] at hs
      cases hs
      exact ⟨h.isClosed, rfl, h.refs, [], hsame, nofun⟩
  | ask _ c hc =>
      cases c with
      | close => exact absurd rfl hc
      | request =>
          cases hs
          exact ⟨h.isClosed, rfl, h.refs, _, rfl, by simp [IsAsked]⟩
      | query =>
          change (pure (if s.zhandle.isSome then _ else s) : Except Fault State) = _ at hs
          rw [if_pos (show s.zhandle.isSome = true from h.session)] at hs
          cases hs
          exact ⟨h.isClosed, rfl, h.refs, _, rfl, by simp [IsAsked]⟩
  | pollClosed _ a =>
      obtain ⟨polls, -, hs⟩ := eq_ok_of_bind hs
      cases hs
      exact ⟨h.isClosed, rfl, h.refs, [], hsame, nofun⟩

end Releasing

end StudyNotes.NodeZk.Lifecycle
