import StudyNotes.Cluster.Creation

namespace StudyNotes.Cluster.Reconnect

open Systems.Interaction Program Lifecycle Creation

structure Round where
  initialized : Int
  started : Int

def round : Code Round := do
  store .runState .unKnown
  let initialized ← initializeManager (← load .hosts) (← load .path) (← load .node) (← load .timeout)
  let started ← start
  return ⟨initialized, started⟩

/-- The reconnecting loop with a record of its rounds, and whether it has returned
when it is cut off. -/
def reconnecting : Nat → Code (List Round × Bool)
  | 0 => return ([], false)
  | rounds + 1 => do
      if (← load .nodeMode) ≠ .other then
        return ([], true)
      else
        let r ← round
        if ← runStateIs .running then
          let (rs, returned) ← reconnecting rounds
          return (r :: rs, returned)
        else
          return ([r], true)

def expired (rounds : Nat) : Code (List Round × Bool) := do
  store .nodeMode .other
  reconnecting rounds

def finish (result : List Round × Bool) : Code Unit := if result.2 then return () else .diverge

theorem reconnecting_finish (rounds : Nat) : reconnecting rounds >>= finish = reconnect rounds := by
  induction rounds with
  | zero => rfl
  | succ rounds ih =>
      simp only [reconnecting, reconnect, round, Prog.bind_assoc, Prog.ite_bind, Prog.pure_bind, ← ih]
      rfl

theorem expired_finish (rounds : Nat) : expired rounds >>= finish = onSessionEvent rounds zooExpiredSessionState := by
  simp only [expired, onSessionEvent, Prog.bind_assoc, reconnecting_finish, true_or, if_true]

def Same (m m' : Manager) : Prop := ∀ f, f ≠ .nodeMode → m f = m' f

/-- The manager after the child events that another thread may have handled. -/
def Shift (m m' : Manager) : Prop := m' = m ∨ ∃ mode, mode ≠ NodeMode.other ∧ m' = Function.update m .nodeMode mode

def recorded : (q : Request) → Reply q → List (Sigma Reply)
  | .load .nodeMode, mode => [⟨.load .nodeMode, mode⟩]
  | q, r => logged q r

/-- The contract of a library that may return anything, with child events at any time. -/
def eventful : Contract Request Reply World where
  pre _ _ := True
  reply w q r w' := ∃ m, Shift w.1 m ∧ Answer m q r w'.1 ∧ w'.2 = w.2 ++ recorded q r

/-- The requests that do not read the mode. -/
def apart : Contract Request Reply Unit where
  pre _ q := q ≠ .load .nodeMode
  reply _ _ _ _ := True

theorem Same.shift {m m' m'' : Manager} (h : Same m m') (hs : Shift m' m'') : Same m m'' := by
  rcases hs with rfl | ⟨mode, -, rfl⟩
  · exact h
  · intro f hf
    rw [Function.update_of_ne hf]
    exact h f hf

theorem Same.update {m m' : Manager} (h : Same m m') (f : Field) (v : f.type) :
    Same (Function.update m f v) (Function.update m' f v) := by
  intro f' hf'
  by_cases hf : f' = f
  · subst hf
    rw [Function.update_self, Function.update_self]
  · rw [Function.update_of_ne hf, Function.update_of_ne hf]
    exact h f' hf'

theorem Same.answer {m₁ m m₁' : Manager} {q : Request} {r : Reply q} (h : Same m m₁) (hq : q ≠ .load .nodeMode)
    (hr : Answer m₁ q r m₁') : ∃ m', Answer m q r m' ∧ Same m' m₁' := by
  cases q with
  | load f =>
      obtain ⟨rfl, rfl⟩ := hr
      have hf : f ≠ .nodeMode := fun hf => hq (hf ▸ rfl)
      exact ⟨m, ⟨(h f hf).symm, rfl⟩, h⟩
  | store f v =>
      obtain rfl : m₁' = _ := hr
      exact ⟨_, rfl, h.update f v⟩
  | onMasterEvent handler isMaster => exact ⟨m, rfl, hr ▸ h⟩
  | zookeeperInit hosts timeout => exact ⟨m, rfl, hr ▸ h⟩
  | zookeeperClose handle => exact ⟨m, rfl, hr ▸ h⟩
  | zooExists handle path => exact ⟨m, rfl, hr ▸ h⟩
  | zooCreate handle path value ephemeral => exact ⟨m, rfl, hr ▸ h⟩
  | zooGetChildren handle path => exact ⟨m, rfl, hr ▸ h⟩

theorem recorded_apart {q : Request} (hq : q ≠ .load .nodeMode) (r : Reply q) : recorded q r = logged q r := by
  unfold recorded
  split
  · exact absurd rfl hq
  · rfl

variable {α : Type}

/-- A program that does not read the mode does under child events what it does without them. -/
theorem wp_eventful {p : Code α} {post : α → World → Prop} {m m₁ : Manager} (earlier : List (Sigma Reply))
    {log : List (Sigma Reply)} (hp : apart.wp p (fun _ _ => True) ()) (h : anyReply.wp p post (m, log)) (hm : Same m m₁) :
    eventful.wp p (fun a w' => ∃ m' log', post a (m', log') ∧ Same m' w'.1 ∧ w'.2 = earlier ++ log')
      (m₁, earlier ++ log) := by
  induction p generalizing m m₁ log with
  | done a => exact ⟨m, log, h, hm, rfl⟩
  | ask q k ih =>
      refine ⟨trivial, ?_⟩
      rintro r ⟨m₂, log₂⟩ ⟨m₃, hshift, hanswer, hlog⟩
      obtain ⟨m', hm', hsame⟩ := (hm.shift hshift).answer hp.1 hanswer
      obtain rfl : log₂ = earlier ++ (log ++ logged q r) := by
        rw [← List.append_assoc, ← recorded_apart hp.1]
        exact hlog
      exact ih r (hp.2 r () trivial) (h.2 r (m', log ++ logged q r) ⟨hm', rfl⟩) hsame
  | diverge => trivial

@[simp] theorem wp_ask_apart {q : Request} {k : Reply q → Code α} {post : α → Unit → Prop} {u : Unit} :
    apart.wp (.ask q k) post u ↔ q ≠ .load .nodeMode ∧ ∀ r, apart.wp (k r) post u :=
  and_congr_right fun _ => ⟨fun h r => h r u trivial, fun h r _ _ => h r⟩

theorem apart_createPath (nodes : List String) (zkPath : String) (res : Int) :
    apart.wp (createPath zkPath res nodes) (fun _ _ => True) () := by
  induction nodes generalizing zkPath res with
  | nil => trivial
  | cons node nodes ih => simp [createPath, ih]

theorem apart_createNode (path node : String) : apart.wp (createNode path node) (fun _ _ => True) () := by
  have hown : apart.wp (createOwn path node) (fun _ _ => True) () := by simp [createOwn]
  simp only [createNode, load, zooExists, request, wp_bind, wp_ask_apart, wp_done, wp_ite, wp_pure, ne_eq,
    Request.load.injEq, reduceCtorEq, not_false_eq_true, true_and, implies_true, and_true]
  exact fun _ _ _ _ => ⟨fun _ => wp_mono (apart_createPath _ _ _) fun _ _ _ => hown, fun _ => hown⟩

theorem apart_start : apart.wp start (fun _ _ => True) () := by
  simp only [start, runStateIs, load, store, request, wp_bind, wp_ask_apart, wp_done, wp_ite, wp_pure, ne_eq,
    Request.load.injEq, reduceCtorEq, not_false_eq_true, true_and, implies_true, and_true]
  intro _ _ path node
  refine wp_mono (apart_createNode path node) fun _ _ _ => ?_
  simp

theorem apart_initializeManager (hosts path node : String) (timeout : Nat) :
    apart.wp (initializeManager hosts path node timeout) (fun _ _ => True) () := by
  have hreset : apart.wp resetHandle (fun _ _ => True) () := by
    simp only [resetHandle, load, store, request, wp_bind, wp_ask_apart, wp_done]
    refine ⟨by simp, fun h => ⟨by simp, fun _ => ?_⟩⟩
    cases h <;> simp
  have hactive : apart.wp isActive (fun _ _ => True) () := by simp [isActive, runStateIs]
  simp only [initializeManager, wp_bind]
  refine wp_mono hactive fun active _ _ => ?_
  simp only [wp_ite, wp_pure, implies_true, true_and, zookeeperInit, request, wp_bind, wp_ask_apart, wp_done]
  refine fun _ _ => ⟨by simp, fun h => ?_⟩
  cases h with
  | none => trivial
  | some h =>
      simp only [store, request, wp_bind, wp_ask_apart, wp_done, ne_eq, reduceCtorEq, not_false_eq_true, true_and]
      intro _ _ _ _
      refine wp_mono hreset fun _ _ _ => ?_
      simp

theorem apart_round : apart.wp round (fun _ _ => True) () := by
  simp only [round, load, store, request, wp_bind, wp_ask_apart, wp_done, ne_eq, Request.load.injEq, reduceCtorEq,
    not_false_eq_true, true_and]
  intro _ hosts path node timeout
  refine wp_mono (apart_initializeManager hosts path node timeout) fun _ _ _ => ?_
  exact wp_mono apart_start fun _ _ _ => trivial

def mode? : Sigma Reply → Option NodeMode
  | ⟨.load .nodeMode, mode⟩ => some mode
  | _ => none

theorem mode?_logged (q : Request) (r : Reply q) : ∀ e ∈ logged q r, mode? e = none := by
  cases q <;> simp [logged, mode?]

theorem calls_not_tests (p : Code α) (w : World) (hw : ∀ e ∈ w.2, mode? e = none) :
    anyReply.wp p (fun _ w' => ∀ e ∈ w'.2, mode? e = none) w := by
  induction p generalizing w with
  | done a => exact hw
  | ask q k ih =>
      refine ⟨trivial, fun r w' hr => ih r w' ?_⟩
      rw [hr.2]
      exact List.forall_mem_append.2 ⟨hw, mode?_logged q r⟩
  | diverge => trivial

theorem resetHandle_calls (w : World) (hw : ∀ e ∈ w.2, code e = none) :
    anyReply.wp resetHandle (fun _ w' => ∀ e ∈ w'.2, code e = none) w := by
  simp only [resetHandle, load, store, request, wp_bind, wp_load, wp_store, wp_done]
  cases w.1 .zkhandlePtr with
  | none => exact hw
  | some h =>
      simp only [zookeeperClose, request, wp_zookeeperClose, wp_done]
      exact List.forall_mem_append.2 ⟨hw, by simp [code]⟩

theorem initializeManager_calls (hosts path node : String) (timeout : Nat) (w : World) (hw : ∀ e ∈ w.2, code e = none) :
    anyReply.wp (initializeManager hosts path node timeout) (fun _ w' => ∀ e ∈ w'.2, code e = none) w := by
  simp only [initializeManager, wp_bind]
  refine wp_mono (isActive_spec w) ?_
  rintro active w' ⟨rfl, -⟩
  simp only [wp_ite, wp_pure, zookeeperInit, request, wp_bind, wp_zookeeperInit, wp_done]
  refine ⟨fun _ => hw, fun _ => ⟨fun _ => hw, fun _ => ?_⟩⟩
  intro h
  have hlog : ∀ e ∈ w'.2 ++ [⟨.zookeeperInit hosts timeout, h⟩], code e = none :=
    List.forall_mem_append.2 ⟨hw, by simp [code]⟩
  cases h with
  | none => exact hlog
  | some h =>
      simp only [store, request, wp_bind, wp_store, wp_done]
      exact wp_mono (resetHandle_calls _ hlog) fun _ _ h' => h'

def Connected (calls : List (Sigma Reply)) : Prop := ∃ e ∈ calls.getLast?, code e = some zok

theorem connected_iff {path node : String} {res : Int} {log calls : List (Sigma Reply)}
    (h : OwnCalls path node res calls) : Connected (log ++ calls) ↔ res = zok := by
  obtain ⟨e, he, hcode⟩ := h.last log
  constructor
  · rintro ⟨e', he', hok⟩
    obtain rfl : e' = e := Option.mem_unique he' he
    exact Option.some.inj (hcode.symm.trans hok)
  · rintro rfl
    exact ⟨e, he, hcode⟩

theorem not_connected {calls : List (Sigma Reply)} (h : ∀ e ∈ calls, code e = none) : ¬Connected calls := by
  rintro ⟨e, he, hcode⟩
  rw [h e (List.mem_of_getLast? he)] at hcode
  cases hcode

/-- A round leaves the manager running, and its Start succeeds, exactly when its last call
returned ZOK. -/
theorem round_spec (m : Manager) :
    anyReply.wp round (fun r w' => (w'.1 .runState = .running ↔ Connected w'.2) ∧ (r.started = zok ↔ Connected w'.2))
      (m, []) := by
  simp only [round, load, store, request, wp_bind, wp_load, wp_store, wp_done, wp_pure]
  refine wp_mono (wp_and (initializeManager_spec _ _ _ _ _) (initializeManager_calls _ _ _ _ _ (by simp))) ?_
  rintro initialized w ⟨hstate, hcalls⟩
  have hrun : w.1 .runState ≠ .running := by
    rcases hstate with hm | ⟨-, -, -, h, hm⟩
    · simp [hm]
    · simp [hm, opened]
  refine wp_mono (start_calls w hrun) ?_
  rintro started w' ⟨⟨calls, hlog, ⟨rfl, rfl⟩ | ⟨-, hown⟩⟩, hrunning⟩
  · have hnot : ¬Connected w'.2 := by
      rw [hlog, List.append_nil]
      exact not_connected hcalls
    exact ⟨iff_of_false (by simp [hrunning, zok]) hnot, iff_of_false (by simp [zok]) hnot⟩
  · rw [hlog, connected_iff hown]
    exact ⟨hrunning, Iff.rfl⟩

section eventful

variable {post : α → World → Prop} {w : World}

theorem same_refl (m : Manager) : Same m m := fun _ _ => rfl

theorem wp_ask_eventful {q : Request} {k : Reply q → Code α}
    (h : ∀ r m m', Same w.1 m → Answer m q r m' → eventful.wp (k r) post (m', w.2 ++ recorded q r)) :
    eventful.wp (.ask q k) post w := by
  refine ⟨trivial, ?_⟩
  rintro r ⟨m', log'⟩ ⟨m, hshift, hanswer, hlog⟩
  obtain rfl : log' = _ := hlog
  exact h r m m' ((same_refl w.1).shift hshift) hanswer

theorem wp_test {k : Reply (.load .nodeMode) → Code α}
    (h : ∀ mode m', Same w.1 m' → eventful.wp (k mode) post (m', w.2 ++ [⟨.load .nodeMode, mode⟩])) :
    eventful.wp (.ask (.load .nodeMode) k) post w := by
  refine wp_ask_eventful ?_
  rintro mode m m' hsame ⟨-, rfl⟩
  exact h mode m' hsame

theorem wp_runStateIs_eventful {state : State} {post : Bool → World → Prop}
    (h : ∀ m', Same w.1 m' → post (decide (w.1 .runState = state)) (m', w.2)) :
    eventful.wp (runStateIs state) post w := by
  refine wp_ask_eventful ?_
  rintro _ m m' hsame ⟨rfl, rfl⟩
  rw [← hsame .runState (by decide), recorded_apart (by simp), logged, List.append_nil]
  exact h m' hsame

theorem wp_reset {k : Reply (.store .nodeMode .other) → Code α}
    (h : ∀ m', Same w.1 m' → eventful.wp (k ()) post (m', w.2)) :
    eventful.wp (.ask (.store .nodeMode .other) k) post w := by
  refine wp_ask_eventful ?_
  rintro ⟨⟩ m m' hsame hm'
  rw [recorded_apart (by simp), logged, List.append_nil]
  refine h m' fun f hf => ?_
  rw [hm', Function.update_of_ne hf]
  exact hsame f hf

end eventful

/-- What the loop does, from a state of the manager to a state, with its log and the rounds
it has begun. -/
inductive Rounds : State → List (Sigma Reply) → List Round → Bool → State → Prop
  | cut (s : State) : Rounds s [] [] false s
  | settled (s : State) {mode : NodeMode} (hmode : mode ≠ .other) : Rounds s [⟨.load .nodeMode, mode⟩] [] true s
  | failed (s : State) {s' : State} {calls : List (Sigma Reply)} {r : Round} (hcalls : ∀ e ∈ calls, mode? e = none)
      (hnot : ¬Connected calls) (hs' : s' ≠ .running) : Rounds s (⟨.load .nodeMode, NodeMode.other⟩ :: calls) [r] true s'
  | again (s : State) {s' : State} {calls log : List (Sigma Reply)} {r : Round} {rs : List Round} {returned : Bool}
      (hcalls : ∀ e ∈ calls, mode? e = none) (hcon : Connected calls) (hr : r.started = zok)
      (h : Rounds .running log rs returned s') :
      Rounds s (⟨.load .nodeMode, NodeMode.other⟩ :: (calls ++ log)) (r :: rs) returned s'

theorem reconnecting_rounds (rounds : Nat) (w : World) :
    eventful.wp (reconnecting rounds) (fun result w' => ∃ log, w'.2 = w.2 ++ log ∧
      Rounds (w.1 .runState) log result.1 result.2 (w'.1 .runState)) w := by
  induction rounds generalizing w with
  | zero => exact ⟨[], (List.append_nil _).symm, .cut _⟩
  | succ rounds ih =>
      simp only [reconnecting, load, request, wp_bind]
      refine wp_test fun mode m₁ h₁ => ?_
      have hrun : m₁ .runState = w.1 .runState := (h₁ .runState (by decide)).symm
      simp only [wp_done, wp_ite, wp_pure, wp_bind, not_not]
      refine ⟨fun hmode => ⟨_, rfl, hrun ▸ .settled _ hmode⟩, ?_⟩
      rintro rfl
      have hround := wp_eventful (w.2 ++ [⟨.load .nodeMode, NodeMode.other⟩]) apart_round
        (wp_and (round_spec m₁) (calls_not_tests round (m₁, []) (by simp))) (same_refl m₁)
      rw [List.append_nil] at hround
      refine wp_mono hround ?_
      rintro r w₂ ⟨m, calls, ⟨⟨hstate, hr⟩, hcalls⟩, hsame, hlog⟩
      have hstate₂ : w₂.1 .runState = .running ↔ Connected calls := by
        rw [← hsame .runState (by decide)]
        exact hstate
      refine wp_runStateIs_eventful fun m₃ h₃ => ?_
      have hrun₃ : m₃ .runState = w₂.1 .runState := (h₃ .runState (by decide)).symm
      rw [decide_eq_true_eq]
      refine ⟨fun hrunning => wp_mono (ih _) ?_, fun hnot => ?_⟩
      · rintro ⟨rs, returned⟩ w₄ ⟨log, hlog₄, hrounds⟩
        have hcon := hstate₂.1 hrunning
        refine ⟨⟨.load .nodeMode, NodeMode.other⟩ :: (calls ++ log), ?_, .again _ hcalls hcon (hr.2 hcon) ?_⟩
        · rw [hlog₄, hlog, List.append_assoc, List.append_assoc]
          rfl
        · rw [← hrunning, ← hrun₃]
          exact hrounds
      · refine ⟨⟨.load .nodeMode, NodeMode.other⟩ :: calls, ?_, .failed _ hcalls (fun h => hnot (hstate₂.2 h)) ?_⟩
        · rw [hlog, List.append_assoc]
          rfl
        · exact fun h => hnot (hrun₃.symm.trans h)

def tests (log : List (Sigma Reply)) : List NodeMode := log.filterMap mode?

def firstRound (log : List (Sigma Reply)) : List (Sigma Reply) := log.tail.takeWhile fun e => (mode? e).isNone

/-- The first test finds a manager that runs and is no longer in the mode Other; or it finds the
mode Other, the first round connects, and the second test no longer finds it. -/
def Settles (s : State) (log : List (Sigma Reply)) : Prop :=
  ∀ first later, tests log = first :: later → first ≠ .other ∧ s = .running ∨
    first = .other ∧ Connected (firstRound log) ∧ ∀ mode ∈ later.head?, mode ≠ .other

def Kept (rs : List Round) (returned : Bool) (s : State) : Prop :=
  (returned = true → s = .running) ∧ ∀ r ∈ rs.dropLast, r.started ≠ zok

section law

variable {s s' : State} {calls log : List (Sigma Reply)} {r : Round} {rs : List Round} {returned : Bool}

theorem tests_calls (h : ∀ e ∈ calls, mode? e = none) : tests calls = [] := List.filterMap_eq_nil_iff.2 h

theorem takeWhile_calls (h : ∀ e ∈ calls, mode? e = none) (log : List (Sigma Reply)) :
    (calls ++ log).takeWhile (fun e => (mode? e).isNone) = calls ++ log.takeWhile fun e => (mode? e).isNone :=
  List.takeWhile_append_of_pos fun e he => by rw [h e he]; rfl

theorem Rounds.takeWhile_log (h : Rounds s log rs returned s') : log.takeWhile (fun e => (mode? e).isNone) = [] := by
  cases h <;> rfl

theorem settles_cons {mode : NodeMode} :
    Settles s (⟨.load .nodeMode, mode⟩ :: log) ↔ mode ≠ .other ∧ s = .running ∨
      mode = .other ∧ Connected (log.takeWhile fun e => (mode? e).isNone) ∧ ∀ next ∈ (tests log).head?, next ≠ .other := by
  constructor
  · intro h
    exact h mode (tests log) rfl
  · rintro h first later hlog
    obtain ⟨rfl, rfl⟩ : mode = first ∧ tests log = later := List.cons.inj hlog
    exact h

theorem Rounds.next_iff (h : Rounds .running log rs returned s') (hr : r.started = zok) :
    Kept (r :: rs) returned s' ↔ ∀ mode ∈ (tests log).head?, mode ≠ .other := by
  have hagain (r' : Round) (rs : List Round) : ¬Kept (r :: r' :: rs) returned s' := fun hkept =>
    hkept.2 r (by simp) hr
  cases h with
  | cut => simp [Kept, tests]
  | settled _ hmode => simp [Kept, tests, mode?, hmode]
  | failed _ hcalls hnot hs' => exact iff_of_false (hagain _ _) (by simp [tests, mode?])
  | again _ hcalls hcon hr' h => exact iff_of_false (hagain _ _) (by simp [tests, mode?])

theorem Rounds.kept_iff (h : Rounds s log rs returned s') : Kept rs returned s' ↔ Settles s log := by
  cases h with
  | cut => simp [Kept, Settles, tests]
  | settled _ hmode => simp [settles_cons, Kept, hmode]
  | @failed _ _ calls r hcalls hnot hs' =>
      have hround := takeWhile_calls hcalls []
      rw [List.append_nil, List.takeWhile_nil, List.append_nil] at hround
      rw [settles_cons, hround]
      simp [Kept, hs', hnot]
  | @again _ _ calls log r rs _ hcalls hcon hr h =>
      rw [settles_cons, takeWhile_calls hcalls, h.takeWhile_log, List.append_nil, h.next_iff hr]
      have htests : tests (calls ++ log) = tests log := by
        rw [tests, List.filterMap_append]
        exact congrArg (· ++ tests log) (tests_calls hcalls)
      simp [htests, hcon]

end law

/-- When the session has expired, the loop keeps a session that it has established, and returns
only with one, exactly when the calls of the first round and the child events let it settle. -/
theorem reconnect_settles_iff (rounds : Nat) (m m' : Manager) (rs : List Round) (returned : Bool)
    (log : List (Sigma Reply)) (h : Exec eventful (m, []) (expired rounds) (rs, returned) (m', log)) :
    ((returned = true → m' .runState = .running) ∧ ∀ r ∈ rs.dropLast, r.started ≠ zok) ↔
      Settles (m .runState) log := by
  have hspec : eventful.wp (expired rounds) (fun result w' =>
      Rounds (m .runState) w'.2 result.1 result.2 (w'.1 .runState)) (m, []) := by
    simp only [expired, store, request, wp_bind]
    refine wp_reset fun m₁ h₁ => (wp_done _ _ _).2 (wp_mono (reconnecting_rounds rounds (m₁, [])) ?_)
    rintro ⟨rs, returned⟩ w' ⟨log, hlog, hrounds⟩
    have hrun : m .runState = m₁ .runState := h₁ .runState (by decide)
    rw [hrun, show w'.2 = log from hlog]
    exact hrounds
  exact (h.of_wp hspec).kept_iff

def joined (joins : Bool) (w : World) : Manager :=
  if joins ∧ w.2.length ≠ 0 then Function.update w.1 .nodeMode .leader else w.1

/-- A library that opens handles or does not, with the child event or without it. -/
def serving (opens joins : Bool) (w : World) : (q : Request) → Reply q × World
  | .load .nodeMode =>
      (joined joins w .nodeMode, joined joins w, w.2 ++ [⟨.load .nodeMode, joined joins w .nodeMode⟩])
  | .zookeeperInit hosts timeout =>
      let h := if opens then some 1 else none
      (h, w.1, w.2 ++ [⟨.zookeeperInit hosts timeout, h⟩])
  | q => obliging [] w q

theorem eventful_of_anyReply {w w' : World} {q : Request} (hq : q ≠ .load .nodeMode) {r : Reply q}
    (h : anyReply.reply w q r w') : eventful.reply w q r w' :=
  ⟨w.1, Or.inl rfl, h.1, by rw [recorded_apart hq]; exact h.2⟩

theorem shift_joined (joins : Bool) (w : World) : Shift w.1 (joined joins w) := by
  unfold joined
  split
  · exact Or.inr ⟨.leader, by decide, rfl⟩
  · exact Or.inl rfl

theorem serving_reply (opens joins : Bool) (w : World) (q : Request) :
    eventful.reply w q (serving opens joins w q).1 (serving opens joins w q).2 := by
  cases q with
  | load f =>
      cases f with
      | nodeMode => exact ⟨joined joins w, shift_joined joins w, ⟨rfl, rfl⟩, rfl⟩
      | _ => exact eventful_of_anyReply (by simp) (obliging_reply [] w _)
  | zookeeperInit hosts timeout => exact eventful_of_anyReply (by simp) ⟨rfl, rfl⟩
  | _ => exact eventful_of_anyReply (by simp) (obliging_reply [] w _)

def lost : Manager := Function.update ready .runState .running

theorem reconnect_settles_leader : ∃ m' log,
    Exec eventful (lost, []) (expired 2) ([⟨0, zok⟩], true) (m', log) ∧ m' .runState = .running ∧
    Settles (lost .runState) log := by
  have h : Exec eventful (lost, []) (expired 2) ([⟨0, zok⟩], true) (_, _) :=
    Exec.of_run (serving_reply true true) rfl
  exact ⟨_, _, h, rfl, (reconnect_settles_iff 2 _ _ _ _ _ h).1 ⟨fun _ => rfl, by simp⟩⟩

/-- Without a handle the loop returns after one round although the manager does not run; with one
it opens the next session right after the Start that succeeded. -/
theorem gives_up_or_starts_again :
    (∃ m' log, Exec eventful (lost, []) (onSessionEvent 1 zooExpiredSessionState) () (m', log) ∧
      m' .runState = .unKnown) ∧
    ∃ m' log, Exec eventful (lost, []) (expired 2) ([⟨0, zok⟩, ⟨0, zok⟩], false) (m', log) := by
  have h₁ : Exec eventful (lost, []) (onSessionEvent 1 zooExpiredSessionState) () (_, _) :=
    Exec.of_run (serving_reply false false) rfl
  have h₂ : Exec eventful (lost, []) (expired 2) ([⟨0, zok⟩, ⟨0, zok⟩], false) (_, _) :=
    Exec.of_run (serving_reply true false) rfl
  exact ⟨⟨_, _, h₁, rfl⟩, _, _, h₂⟩

end StudyNotes.Cluster.Reconnect
