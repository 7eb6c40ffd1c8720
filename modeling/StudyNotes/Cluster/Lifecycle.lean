import StudyNotes.Cluster.Program
import StudyNotes.Systems.Transition

namespace StudyNotes.Cluster.Lifecycle

open Systems.Transition Systems.Interaction Program

/-- A manager, and the calls of the ZooKeeper library with what they returned. -/
abbrev World := Manager × List (Sigma Reply)

/-- The replies that are possible when no other thread runs. -/
def Answer (m : Manager) : (q : Request) → Reply q → Manager → Prop
  | .load f, v, m' => v = m f ∧ m' = m
  | .store f v, _, m' => m' = Function.update m f v
  | .onMasterEvent _ _, _, m' | .zookeeperInit _ _, _, m' | .zookeeperClose _, _, m' | .zooExists _ _, _, m'
  | .zooCreate _ _ _ _, _, m' | .zooGetChildren _ _, _, m' => m' = m

def logged : (q : Request) → Reply q → List (Sigma Reply)
  | .load _, _ | .store _ _, _ | .onMasterEvent _ _, _ => []
  | q, r => [⟨q, r⟩]

/-- The contract of a library that may return anything. -/
def anyReply : Contract Request Reply World where
  pre _ _ := True
  reply w q r w' := Answer w.1 q r w'.1 ∧ w'.2 = w.2 ++ logged q r

section rules

variable {α : Type} {post : α → World → Prop} {w : World}

@[simp] theorem wp_load {f : Field} {k : Reply (.load f) → Code α} :
    anyReply.wp (.ask (.load f) k) post w ↔ anyReply.wp (k (w.1 f)) post w := by
  simp only [wp_ask, anyReply, Answer, logged, List.append_nil, true_and]
  constructor
  · intro h
    exact h _ w ⟨⟨rfl, rfl⟩, rfl⟩
  · rintro h r ⟨m', log'⟩ ⟨⟨rfl, rfl⟩, rfl⟩
    exact h

@[simp] theorem wp_store {f : Field} {v : f.type} {k : Reply (.store f v) → Code α} :
    anyReply.wp (.ask (.store f v) k) post w ↔ anyReply.wp (k ()) post (Function.update w.1 f v, w.2) := by
  simp only [wp_ask, anyReply, Answer, logged, List.append_nil, true_and]
  constructor
  · intro h
    exact h () _ ⟨rfl, rfl⟩
  · rintro h ⟨⟩ ⟨m', log'⟩ ⟨rfl, rfl⟩
    exact h

/-- A call of the library or of a handler leaves the manager as it is. -/
theorem wp_call {q : Request} (hq : ∀ m r m', Answer m q r m' ↔ m' = m) {k : Reply q → Code α} :
    anyReply.wp (.ask q k) post w ↔ ∀ r, anyReply.wp (k r) post (w.1, w.2 ++ logged q r) := by
  simp only [wp_ask, anyReply, hq, true_and]
  constructor
  · intro h r
    exact h r _ ⟨rfl, rfl⟩
  · rintro h r ⟨m', log'⟩ ⟨rfl, rfl⟩
    exact h r

@[simp] theorem wp_onMasterEvent {handler : EventHandler} {isMaster : Bool}
    {k : Reply (.onMasterEvent handler isMaster) → Code α} :
    anyReply.wp (.ask (.onMasterEvent handler isMaster) k) post w ↔ anyReply.wp (k ()) post w := by
  rw [wp_call fun _ _ _ => Iff.rfl]
  simp only [logged, List.append_nil]
  exact ⟨fun h => h (), fun h _ => h⟩

@[simp] theorem wp_zookeeperInit {hosts : String} {timeout : Nat} {k : Reply (.zookeeperInit hosts timeout) → Code α} :
    anyReply.wp (.ask (.zookeeperInit hosts timeout) k) post w ↔
      ∀ h : Option Handle, anyReply.wp (k h) post (w.1, w.2 ++ [⟨.zookeeperInit hosts timeout, h⟩]) :=
  wp_call fun _ _ _ => Iff.rfl

@[simp] theorem wp_zookeeperClose {h : Handle} {k : Reply (.zookeeperClose h) → Code α} :
    anyReply.wp (.ask (.zookeeperClose h) k) post w ↔
      anyReply.wp (k ()) post (w.1, w.2 ++ [⟨.zookeeperClose h, ()⟩]) := by
  rw [wp_call fun _ _ _ => Iff.rfl]
  exact ⟨fun h => h (), fun h _ => h⟩

@[simp] theorem wp_zooExists {h : Option Handle} {path : String} {k : Reply (.zooExists h path) → Code α} :
    anyReply.wp (.ask (.zooExists h path) k) post w ↔
      ∀ res : Int, anyReply.wp (k res) post (w.1, w.2 ++ [⟨.zooExists h path, res⟩]) :=
  wp_call fun _ _ _ => Iff.rfl

@[simp] theorem wp_zooCreate {h : Option Handle} {path value : String} {ephemeral : Bool}
    {k : Reply (.zooCreate h path value ephemeral) → Code α} :
    anyReply.wp (.ask (.zooCreate h path value ephemeral) k) post w ↔
      ∀ res : Int, anyReply.wp (k res) post (w.1, w.2 ++ [⟨.zooCreate h path value ephemeral, res⟩]) :=
  wp_call fun _ _ _ => Iff.rfl

@[simp] theorem wp_zooGetChildren {h : Option Handle} {path : String} {k : Reply (.zooGetChildren h path) → Code α} :
    anyReply.wp (.ask (.zooGetChildren h path) k) post w ↔
      ∀ r : Int × List String, anyReply.wp (k r) post (w.1, w.2 ++ [⟨.zooGetChildren h path, r⟩]) :=
  wp_call fun _ _ _ => Iff.rfl

end rules

/-- The states from Initialize to Stop. -/
def Active (state : State) : Prop := state = .initialized ∨ state = .running ∨ state = .started

theorem active_iff {state : State} : Active state ↔ state ≠ .stopped ∧ state ≠ .unKnown := by
  cases state <;> simp [Active]

@[simp] theorem wp_runStateIs {state : State} {post : Bool → World → Prop} {w : World} :
    anyReply.wp (runStateIs state) post w ↔ post (decide (w.1 .runState = state)) w := by
  simp [runStateIs]

theorem isActive_spec (w : World) :
    anyReply.wp isActive (fun b w' => w' = w ∧ (b = true ↔ Active (w.1 .runState))) w := by
  simp only [isActive, wp_bind, wp_runStateIs, wp_ite, wp_pure, decide_eq_true_eq]
  grind [Active]

theorem resetHandle_spec (w : World) :
    anyReply.wp resetHandle (fun _ w' => w'.1 = Function.update w.1 .zkhandlePtr none) w := by
  simp only [resetHandle, load, store, zookeeperClose, request, wp_bind, wp_load, wp_store, wp_done]
  cases w.1 .zkhandlePtr <;> simp

def opened (m : Manager) (hosts path node : String) (timeout : Nat) (h : Handle) : Manager
  | .runState => State.initialized
  | .zkhandlePtr => some h
  | .hosts => hosts
  | .path => path
  | .node => node
  | .timeout => timeout
  | .nodeMode => m .nodeMode
  | .eventHandlers => m .eventHandlers

/-- A call of Initialize changes nothing, or opens a new handle and returns 0. -/
theorem initializeManager_spec (hosts path node : String) (timeout : Nat) (w : World) :
    anyReply.wp (initializeManager hosts path node timeout) (fun res w' => w'.1 = w.1 ∨
      res = 0 ∧ hosts ≠ "" ∧ path ≠ "" ∧ ∃ h, w'.1 = opened w.1 hosts path node timeout h) w := by
  simp only [initializeManager, wp_bind]
  refine wp_mono (isActive_spec w) ?_
  rintro active w' ⟨rfl, -⟩
  simp only [wp_ite, wp_pure, not_or, zookeeperInit, request, wp_bind, wp_zookeeperInit, wp_done]
  refine ⟨fun _ => Or.inl trivial, fun _ => ⟨fun _ => Or.inl trivial, fun hne => ?_⟩⟩
  rintro (_ | h)
  · exact Or.inl rfl
  · simp only [store, request, wp_bind, wp_store, wp_done]
    refine wp_mono (resetHandle_spec _) ?_
    rintro - ⟨m', log'⟩ hm
    obtain rfl : m' = _ := hm
    refine Or.inr ⟨rfl, hne.1, hne.2, h, ?_⟩
    funext f
    cases f <;> simp [opened, Function.update]

theorem createPath_spec (nodes : List String) (zkPath : String) (res : Int) (w : World) :
    anyReply.wp (createPath zkPath res nodes) (fun _ w' => w'.1 = w.1) w := by
  induction nodes generalizing zkPath res w with
  | nil => exact rfl
  | cons node nodes ih =>
      simp only [createPath, load, zooExists, zooCreate, request, wp_bind, wp_load, wp_zooExists, wp_zooCreate, wp_done,
        wp_ite, wp_pure]
      intro res'
      refine ⟨fun _ res'' => ⟨fun _ => trivial, fun _ => ?_⟩, fun _ => ?_⟩
      · exact wp_mono (ih _ _ _) fun _ _ hw' => hw'
      · exact wp_mono (ih _ _ _) fun _ _ hw' => hw'

theorem createOwn_spec (path node : String) (w : World) :
    anyReply.wp (createOwn path node) (fun _ w' => w'.1 = w.1) w := by
  simp [createOwn]

/-- createNode leaves the manager as it is, and succeeds only with a handle and with
a path and a node that are not empty. -/
theorem createNode_spec (path node : String) (w : World) :
    anyReply.wp (createNode path node) (fun res w' => w'.1 = w.1 ∧
      (res = zok → w.1 .zkhandlePtr ≠ none ∧ path ≠ "" ∧ node ≠ "")) w := by
  simp only [createNode, load, zooExists, request, wp_bind, wp_load, wp_zooExists, wp_done, wp_ite, wp_pure]
  refine ⟨fun hpre res => ?_, fun _ => ⟨trivial, fun h => absurd h (by decide)⟩⟩
  have hargs : w.1 .zkhandlePtr ≠ none ∧ path ≠ "" ∧ node ≠ "" := ⟨Option.isSome_iff_ne_none.1 hpre.1, hpre.2⟩
  refine ⟨fun _ => wp_mono (createPath_spec _ _ _ _) fun _ w' hw' => ?_, fun _ => ?_⟩
  · exact wp_mono (createOwn_spec path node w') fun _ w'' hw'' => ⟨hw''.trans hw', fun _ => hargs⟩
  · exact wp_mono (createOwn_spec path node _) fun _ w'' hw'' => ⟨hw'', fun _ => hargs⟩

/-- Start changes nothing, or takes an initialized manager to the state Running. -/
theorem start_spec (w : World) :
    anyReply.wp start (fun _ w' => w'.1 = w.1 ∨ w.1 .runState = .initialized ∧ w.1 .node ≠ "" ∧
      w'.1 = Function.update w.1 .runState .running) w := by
  simp only [start, wp_bind, wp_runStateIs, wp_ite, wp_pure, decide_eq_true_eq, load, store, request, wp_load, wp_done]
  refine ⟨fun hinit => wp_mono (createNode_spec _ _ w) ?_, fun _ => Or.inl trivial⟩
  rintro res ⟨m', log'⟩ ⟨hm, hok⟩
  obtain rfl : m' = w.1 := hm
  simp only [wp_store, wp_done]
  refine ⟨fun hres => Or.inr ⟨hinit, (hok hres).2.2, ?_⟩, fun _ => Or.inl trivial⟩
  exact Function.update_idem _ _ _

theorem callHandlers_spec (isMaster : Bool) (handlers : List EventHandler) (w : World) :
    anyReply.wp (callHandlers isMaster handlers) (fun _ w' => w' = w) w := by
  induction handlers with
  | nil => exact rfl
  | cons handler handlers ih => simpa [callHandlers] using ih

def childMode (m : Manager) (first : String) : NodeMode := if m .node = first then .leader else .follower

/-- A first child that the library returned decides the mode, and otherwise nothing changes. -/
def ChildPost (h : Handle) (path : String) (w w' : World) : Prop :=
  ∃ r : Int × List String, w'.2 = w.2 ++ [⟨.zooGetChildren (some h) path, r⟩] ∧
    (w'.1 = w.1 ∧ (r.1 = zok → r.2 = []) ∨
      ∃ first rest, r = (zok, first :: rest) ∧ w'.1 = Function.update w.1 .nodeMode (childMode w.1 first))

theorem onChildEvent_spec (h : Handle) (path : String) (w : World) :
    anyReply.wp (onChildEvent h path) (fun _ w' => ChildPost h path w w') w := by
  simp only [onChildEvent, zooGetChildren, request, wp_bind, wp_zooGetChildren, wp_done]
  rintro ⟨res, children⟩
  simp only [wp_ite]
  refine ⟨?_, fun hres => ⟨_, rfl, Or.inl ⟨rfl, fun h => absurd h hres⟩⟩⟩
  rintro rfl
  cases children with
  | nil => exact ⟨_, rfl, Or.inl ⟨rfl, fun _ => rfl⟩⟩
  | cons first rest =>
      simp only [load, store, triggerMasterEvent, request, wp_bind, wp_load, wp_store, wp_done, decide_eq_true_eq]
      refine wp_mono (callHandlers_spec _ _ _) ?_
      rintro - w' rfl
      exact ⟨_, rfl, Or.inr ⟨first, rest, rfl, rfl⟩⟩

structure Live (m : Manager) : Prop where
  active : Active (m .runState) → m .zkhandlePtr ≠ none ∧ m .hosts ≠ "" ∧ m .path ≠ ""
  running : m .runState = .running → m .node ≠ ""

theorem live_of_inactive {m : Manager} (h : ¬Active (m .runState)) : Live m :=
  ⟨fun ha => absurd ha h, fun hr => absurd (Or.inr (Or.inl hr)) h⟩

theorem live_opened (m : Manager) {hosts path : String} (node : String) (timeout : Nat) (h : Handle)
    (hhosts : hosts ≠ "") (hpath : path ≠ "") : Live (opened m hosts path node timeout h) :=
  ⟨fun _ => ⟨nofun, hhosts, hpath⟩, nofun⟩

theorem Live.start {m : Manager} (h : Live m) (hinit : m .runState = .initialized) (hnode : m .node ≠ "") :
    Live (Function.update m .runState .running) :=
  ⟨fun _ => h.active (Or.inl hinit), fun _ => hnode⟩

theorem live_initializeManager (hosts path node : String) (timeout : Nat) (w : World) :
    anyReply.wp (initializeManager hosts path node timeout)
      (fun _ w' => (Live w.1 → Live w'.1) ∧ w'.1 .nodeMode = w.1 .nodeMode) w := by
  refine wp_mono (initializeManager_spec hosts path node timeout w) ?_
  rintro res ⟨m', log'⟩ (hsame | ⟨-, hhosts, hpath, h, hopened⟩)
  · obtain rfl : m' = w.1 := hsame
    exact ⟨id, rfl⟩
  · obtain rfl : m' = _ := hopened
    exact ⟨fun _ => live_opened _ _ _ _ hhosts hpath, rfl⟩

theorem live_start (w : World) :
    anyReply.wp start (fun _ w' => (Live w.1 → Live w'.1) ∧ w'.1 .nodeMode = w.1 .nodeMode) w := by
  refine wp_mono (start_spec w) ?_
  rintro res ⟨m', log'⟩ (hsame | ⟨hinit, hnode, hrun⟩)
  · obtain rfl : m' = w.1 := hsame
    exact ⟨id, rfl⟩
  · obtain rfl : m' = _ := hrun
    exact ⟨fun hl => hl.start hinit hnode, rfl⟩

/-- The reconnecting loop keeps the mode. -/
theorem reconnect_spec (rounds : Nat) (w : World) :
    anyReply.wp (reconnect rounds) (fun _ w' => (Live w.1 → Live w'.1) ∧ w'.1 .nodeMode = w.1 .nodeMode) w := by
  induction rounds generalizing w with
  | zero => exact wp_diverge _ _
  | succ rounds ih =>
      simp only [reconnect, load, store, request, wp_bind, wp_load, wp_store, wp_done, wp_ite, wp_pure]
      refine ⟨fun _ => ⟨id, trivial⟩, fun _ => ?_⟩
      have hlive : Live (Function.update w.1 .runState .unKnown) := live_of_inactive (by simp [Active])
      refine wp_mono (live_initializeManager _ _ _ _ _) fun _ w₁ h₁ => ?_
      refine wp_mono (live_start w₁) fun _ w₂ h₂ => ?_
      have hmode : w₂.1 .nodeMode = w.1 .nodeMode := h₂.2.trans h₁.2
      rw [wp_runStateIs]
      refine ⟨fun _ => wp_mono (ih w₂) fun _ w₃ h₃ => ?_, fun _ => ?_⟩
      · exact ⟨fun _ => h₃.1 (h₂.1 (h₁.1 hlive)), h₃.2.trans hmode⟩
      · exact ⟨fun _ => h₂.1 (h₁.1 hlive), hmode⟩

/-- A session event changes nothing, or leaves the mode Other. -/
theorem onSessionEvent_spec (rounds : Nat) (state : Int) (w : World) :
    anyReply.wp (onSessionEvent rounds state)
      (fun _ w' => (Live w.1 → Live w'.1) ∧ (w'.1 = w.1 ∨ w'.1 .nodeMode = .other)) w := by
  have hlive : Live w.1 → Live (Function.update w.1 .nodeMode .other) := fun h => ⟨h.active, h.running⟩
  simp only [onSessionEvent, store, request, wp_bind, wp_store, wp_done, wp_ite, wp_pure]
  refine ⟨fun _ => ⟨fun _ => ?_, fun _ => ?_⟩, fun hnot => ⟨fun hexp => absurd (Or.inl hexp) hnot, fun _ => ?_⟩⟩
  · refine wp_mono (reconnect_spec rounds _) fun _ w' h' => ?_
    exact ⟨fun h => h'.1 (hlive h), Or.inr h'.2⟩
  · exact ⟨hlive, Or.inr rfl⟩
  · exact ⟨id, Or.inl trivial⟩

/-- What Stop and DeInitialize leave behind, in the state that they set. -/
def closed (m : Manager) (state : State) : Manager
  | .runState => state
  | .zkhandlePtr => none
  | .eventHandlers => []
  | .nodeMode => m .nodeMode
  | .hosts => m .hosts
  | .path => m .path
  | .node => m .node
  | .timeout => m .timeout

theorem leave_spec (state : State) (w : World) : anyReply.wp (leave state) (fun _ w' => w'.1 = closed w.1 state) w := by
  simp only [leave, clearEventHandlers, store, request, wp_bind, wp_store, wp_done]
  refine wp_mono (resetHandle_spec _) ?_
  rintro - ⟨m', log'⟩ hm
  obtain rfl : m' = _ := hm
  refine funext fun f => ?_
  cases f <;> simp [closed, Function.update]

theorem register_spec (handler : EventHandler) (w : World) :
    anyReply.wp (register handler)
      (fun _ w' => w'.1 = Function.update w.1 .eventHandlers (w.1 .eventHandlers ++ [handler])) w := by
  simp only [register, load, store, request, wp_bind, wp_load, wp_store, wp_done, wp_pure]

theorem watcher_spec (rounds : Nat) (h : Handle) (eventType state : Int) (path : String) (w : World) :
    anyReply.wp (Call.watcher rounds h eventType state path).code (fun _ w' =>
      eventType = zooSessionEvent ∧ (Live w.1 → Live w'.1) ∧ (w'.1 = w.1 ∨ w'.1 .nodeMode = .other) ∨
      eventType = zooChildEvent ∧ ChildPost h path w w' ∨ eventType ≠ zooChildEvent ∧ w' = w) w := by
  simp only [Call.code, watcher, wp_bind, wp_ite, wp_pure]
  refine ⟨fun hsession => ?_, fun _ => ⟨fun hchild => ?_, fun hother => Or.inr (Or.inr ⟨hother, trivial⟩)⟩⟩
  · exact wp_mono (onSessionEvent_spec rounds state w) fun _ _ h' => Or.inl ⟨hsession, h'⟩
  · exact wp_mono (onChildEvent_spec h path w) fun _ _ h' => Or.inr (Or.inl ⟨hchild, h'⟩)

theorem live_leave {state : State} (hs : ¬Active state) (w : World) :
    anyReply.wp (leave state) (fun _ w' => Live w'.1) w := by
  refine wp_mono (leave_spec state w) ?_
  rintro - ⟨m', log'⟩ hm
  obtain rfl : m' = _ := hm
  exact live_of_inactive hs

theorem live_call (call : Call) (w : World) : anyReply.wp call.code (fun _ w' => Live w.1 → Live w'.1) w := by
  cases call with
  | initializeManager hosts path node timeout =>
      exact wp_mono (live_initializeManager hosts path node timeout w) fun _ _ h => h.1
  | start => exact wp_mono (live_start w) fun _ _ h => h.1
  | register handler =>
      refine wp_mono (register_spec handler w) ?_
      rintro - ⟨m', log'⟩ hm hl
      obtain rfl : m' = _ := hm
      exact ⟨hl.active, hl.running⟩
  | stop => exact wp_mono (live_leave (by simp [active_iff]) w) fun _ _ h _ => h
  | deInitialize => exact wp_mono (live_leave (by simp [active_iff]) w) fun _ _ h _ => h
  | watcher rounds h eventType state path =>
      refine wp_mono (watcher_spec rounds h eventType state path w) ?_
      rintro - ⟨m', log'⟩ (⟨-, hlive, -⟩ | ⟨-, r, -, ⟨hm, -⟩ | ⟨first, rest, -, hm⟩⟩ | ⟨-, hw⟩) hl
      · exact hlive hl
      · obtain rfl : m' = _ := hm
        exact hl
      · obtain rfl : m' = _ := hm
        exact ⟨hl.active, hl.running⟩
      · rw [hw]
        exact hl

/-- A call that has returned, with the library calls it made. -/
structure Return where
  call : Call
  log : List (Sigma Reply)
  res : Int

/-- The calls and callbacks of one manager, one at a time. -/
def system : System Manager Return where
  init m := m = Manager.init
  step m e m' := Exec anyReply (m, []) e.call.code e.res (m', e.log)

theorem live_run {tr : List (Manager × Return)} {m : Manager} (h : Run system tr m) : Live m := by
  refine Run.induct (T := system) (I := fun _ => Live) ?_ ?_ h
  · rintro m rfl
    exact live_of_inactive (by simp [Active, Manager.init])
  · intro tr m e m' _ hI hs
    exact Exec.of_wp hs (live_call e.call (m, [])) hI

/-- In every state that calls and callbacks reach, an active manager has a handle,
hosts and a path, and a running one a node. A call of Initialize that fails changes nothing. -/
theorem lifecycle (tr : List (Manager × Return)) (m : Manager) (h : Run system tr m) :
    (Active (m .runState) → m .zkhandlePtr ≠ none ∧ m .hosts ≠ "" ∧ m .path ≠ "") ∧
    (m .runState = .running → m .node ≠ "") ∧
    ∀ (w w' : World) (hosts path node : String) (timeout : Nat) (res : Int),
      Exec anyReply w (initializeManager hosts path node timeout) res w' → res ≠ 0 → w'.1 = w.1 := by
  have hl := live_run h
  refine ⟨hl.active, hl.running, ?_⟩
  intro w w' hosts path node timeout res he hres
  rcases he.of_wp (initializeManager_spec hosts path node timeout w) with hsame | ⟨hzero, -⟩
  · exact hsame
  · exact absurd hzero hres

/-- A library in which every call succeeds and shows the given children. -/
def obliging (children : List String) (w : World) : (q : Request) → Reply q × World
  | .load f => (w.1 f, w)
  | .store f v => ((), Function.update w.1 f v, w.2)
  | .onMasterEvent _ _ => ((), w)
  | .zookeeperInit hosts timeout => (some 1, w.1, w.2 ++ [⟨.zookeeperInit hosts timeout, some 1⟩])
  | .zookeeperClose h => ((), w.1, w.2 ++ [⟨.zookeeperClose h, ()⟩])
  | .zooExists h path => (zok, w.1, w.2 ++ [⟨.zooExists h path, zok⟩])
  | .zooCreate h path value ephemeral => (zok, w.1, w.2 ++ [⟨.zooCreate h path value ephemeral, zok⟩])
  | .zooGetChildren h path => ((zok, children), w.1, w.2 ++ [⟨.zooGetChildren h path, (zok, children)⟩])

theorem obliging_reply (children : List String) (w : World) (q : Request) :
    anyReply.reply w q (obliging children w q).1 (obliging children w q).2 := by
  cases q <;> simp [anyReply, obliging, Answer, logged]

theorem step_obliging (children : List String) (call : Call) {m m' : Manager} {log : List (Sigma Reply)} {res : Int}
    (h : call.code.run (obliging children) (m, []) = some (res, m', log)) : system.step m ⟨call, log, res⟩ m' :=
  Exec.of_run (obliging_reply children) h

theorem lifecycle_started : ∃ tr m, Run system tr m ∧ m .runState = .running ∧ m .zkhandlePtr ≠ none ∧
    m .node ≠ "" := by
  have h₁ : Run system _ _ := .next (.start rfl) (step_obliging [] (.initializeManager "zk" "/adc" "a" 10) rfl)
  have h₂ : Run system _ _ := h₁.next (step_obliging [] .start rfl)
  have hl := lifecycle _ _ h₂
  exact ⟨_, _, h₂, rfl, (hl.1 (Or.inr (Or.inl rfl))).1, hl.2.1 rfl⟩

end StudyNotes.Cluster.Lifecycle
