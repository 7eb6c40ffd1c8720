import StudyNotes.Cluster.Service

namespace StudyNotes.Cluster.Contracts

open Systems.Interaction Program Service

variable {ι : Type}

/-- How far a manager has come with its session. -/
inductive Stage
  | closed
  | opened (h : Handle)
  | watched (h : Handle)
  | created (h : Handle)

def Stage.handle : Stage → Option Handle
  | .closed => none
  | .opened h | .watched h | .created h => some h

def Stage.Watching : Stage → Prop
  | .closed | .opened _ => False
  | .watched _ | .created _ => True

/-- How far the callback of a child event has come: it has still to ask for the
children, or to store the mode that the first child decides. -/
inductive Phase
  | toRead (h : Handle)
  | toWrite (first : String)
  | settled

def modeFor (name first : String) : NodeMode := if name = first then .leader else .follower

abbrev Ghost := Manager × Stage

/-- What the calling thread may ask for, given its fields and its stage. -/
def CallerPre (S : Setup ι) (i : ι) (g : Ghost) : Request → Prop
  | .load f => f ≠ .nodeMode
  | .store .nodeMode _ => False
  | .store .node v => v = S.name i
  | .store _ _ => True
  | .onMasterEvent _ _ => False
  | .zookeeperInit _ _ => g.2 = .closed
  | .zookeeperClose h => g.2.handle = some h
  | .zooExists h path => (h ≠ none ∧ g.2.handle = h) ∧ (path = S.path ∨ path = childPath S (S.name i))
  | .zooCreate h path _ ephemeral =>
      (∃ h', h = some h' ∧ g.2 = .watched h') ∧ path = childPath S (S.name i) ∧ ephemeral = true
  | .zooGetChildren h path => (∃ h', h = some h' ∧ g.2 = .opened h') ∧ path = S.path ∧ g.1 .node = S.name i

def CallerReply (S : Setup ι) (g : Ghost) : (q : Request) → Reply q → Ghost → Prop
  | .load f, v, g' => v = g.1 f ∧ g' = g
  | .store f v, _, g' => g' = (Function.update g.1 f v, g.2)
  | .onMasterEvent _ _, _, g' => g' = g
  | .zookeeperInit _ _, r, g' => ∃ h, r = some h ∧ g' = (g.1, .opened h)
  | .zookeeperClose _, _, g' => g' = (g.1, .closed)
  | .zooExists _ path, res, g' => g' = g ∧ (res = zok ∨ res = znonode) ∧
      (res = zok ↔ path = S.path ∨ ∃ h, g.2 = .created h)
  | .zooCreate h _ _ _, res, g' => res = zok ∧ ∃ h', h = some h' ∧ g' = (g.1, .created h')
  | .zooGetChildren h _, _, g' => ∃ h', h = some h' ∧ g' = (g.1, .watched h')

def callerContract (S : Setup ι) (i : ι) : Contract Request Reply Ghost := ⟨CallerPre S i, CallerReply S⟩

def CallbackPre (S : Setup ι) (i : ι) (p : Phase) : Request → Prop
  | .load .node => ∃ first, p = .toWrite first
  | .load .eventHandlers => True
  | .store .nodeMode v => ∃ first, p = .toWrite first ∧ v = modeFor (S.name i) first
  | .onMasterEvent _ _ => True
  | .zooGetChildren h path => (∃ h', h = some h' ∧ p = .toRead h') ∧ path = S.path
  | _ => False

def CallbackReply (S : Setup ι) (i : ι) (p : Phase) : (q : Request) → Reply q → Phase → Prop
  | .load .node, v, p' => v = S.name i ∧ p' = p
  | .load .eventHandlers, _, p' => p' = p
  | .store .nodeMode _, _, p' => p' = .settled
  | .onMasterEvent _ _, _, p' => p' = p
  | .zooGetChildren _ _, (res, []), p' => res = zok ∧ p' = .settled
  | .zooGetChildren _ _, (res, first :: _), p' => res = zok ∧ p' = .toWrite first
  | _, _, _ => False

def callbackContract (S : Setup ι) (i : ι) : Contract Request Reply Phase := ⟨CallbackPre S i, CallbackReply S i⟩

/-- What holds between two calls. -/
def Rest (S : Setup ι) (i : ι) (g : Ghost) : Prop :=
  match g.1 .runState with
  | .unKnown | .stopped => g.1 .zkhandlePtr = none ∧ g.2 = .closed
  | .initialized => g.1 .path = S.path ∧ g.1 .node = S.name i ∧ ∃ h, g.1 .zkhandlePtr = some h ∧ g.2 = .opened h
  | .running => ∃ h, g.1 .zkhandlePtr = some h ∧ g.2 = .created h
  | .started => False

theorem childPath_ne (S : Setup ι) (name : String) : childPath S name ≠ S.path := by
  intro h
  have hlen := congrArg (fun s => s.toList.length) h
  simp [childPath] at hlen

theorem childPath_injective (S : Setup ι) {a b : String} (h : childPath S a = childPath S b) : a = b :=
  (String.append_right_inj _).1 h

section rules

variable {α : Type} {S : Setup ι} {i : ι} {post : α → Ghost → Prop} {g : Ghost}

theorem wp_load {f : Field} {k : Reply (.load f) → Code α} (hf : f ≠ .nodeMode) :
    (callerContract S i).wp (.ask (.load f) k) post g ↔ (callerContract S i).wp (k (g.1 f)) post g := by
  simp only [wp_ask, callerContract, CallerPre, CallerReply]
  refine ⟨fun h => h.2 _ _ ⟨rfl, rfl⟩, fun h => ⟨hf, ?_⟩⟩
  rintro r g' ⟨rfl, rfl⟩
  exact h

theorem wp_store {f : Field} {v : f.type} {k : Reply (.store f v) → Code α} :
    (callerContract S i).wp (.ask (.store f v) k) post g ↔
      CallerPre S i g (.store f v) ∧ (callerContract S i).wp (k ()) post (Function.update g.1 f v, g.2) := by
  simp only [wp_ask, callerContract, CallerReply]
  refine and_congr_right fun _ => ⟨fun h => h () _ rfl, ?_⟩
  rintro h ⟨⟩ g' rfl
  exact h

theorem wp_zookeeperInit {hosts : String} {timeout : Nat} {k : Reply (.zookeeperInit hosts timeout) → Code α} :
    (callerContract S i).wp (.ask (.zookeeperInit hosts timeout) k) post g ↔
      g.2 = .closed ∧ ∀ h : Handle, (callerContract S i).wp (k (some h)) post (g.1, .opened h) := by
  simp only [wp_ask, callerContract, CallerPre, CallerReply]
  refine and_congr_right fun _ => ⟨fun h hd => h _ _ ⟨hd, rfl, rfl⟩, ?_⟩
  rintro h r g' ⟨hd, rfl, rfl⟩
  exact h hd

theorem wp_zookeeperClose {h : Handle} {k : Reply (.zookeeperClose h) → Code α} :
    (callerContract S i).wp (.ask (.zookeeperClose h) k) post g ↔
      g.2.handle = some h ∧ (callerContract S i).wp (k ()) post (g.1, .closed) := by
  simp only [wp_ask, callerContract, CallerPre, CallerReply]
  refine and_congr_right fun _ => ⟨fun h => h () _ rfl, ?_⟩
  rintro h ⟨⟩ g' rfl
  exact h

theorem wp_existsPath {z : Option Handle} {h : Handle} {k : Reply (.zooExists z S.path) → Code α} (hz : z = some h)
    (hg : g.2.handle = some h) (hk : (callerContract S i).wp (k zok) post g) :
    (callerContract S i).wp (.ask (.zooExists z S.path) k) post g := by
  refine ⟨⟨⟨by rw [hz]; exact Option.some_ne_none h, hg.trans hz.symm⟩, Or.inl rfl⟩, ?_⟩
  rintro res g' ⟨rfl, -, hres⟩
  obtain rfl : res = zok := hres.2 (Or.inl rfl)
  exact hk

theorem wp_existsChild {z : Option Handle} {h : Handle}
    {k : Reply (.zooExists z (childPath S (S.name i))) → Code α} (hz : z = some h)
    (hg : g.2 = .watched h) (hk : (callerContract S i).wp (k znonode) post g) :
    (callerContract S i).wp (.ask (.zooExists z (childPath S (S.name i))) k) post g := by
  refine ⟨⟨⟨by rw [hz]; exact Option.some_ne_none h, by rw [hg, hz]; rfl⟩, Or.inr rfl⟩, ?_⟩
  rintro res g' ⟨rfl, hres, hiff⟩
  have hnot : res ≠ zok := by
    rw [ne_eq, hiff]
    rintro (hpath | ⟨h', hc⟩)
    · exact childPath_ne S _ hpath
    · rw [hg] at hc
      cases hc
  obtain rfl : res = znonode := hres.resolve_left hnot
  exact hk

theorem wp_zooCreate {z : Option Handle} {h : Handle} {value : String}
    {k : Reply (.zooCreate z (childPath S (S.name i)) value true) → Code α} (hz : z = some h)
    (hg : g.2 = .watched h) (hk : (callerContract S i).wp (k zok) post (g.1, .created h)) :
    (callerContract S i).wp (.ask (.zooCreate z (childPath S (S.name i)) value true) k) post g := by
  subst hz
  refine ⟨⟨⟨h, rfl, hg⟩, rfl, rfl⟩, ?_⟩
  rintro res g' ⟨rfl, h', heq, rfl⟩
  cases heq
  exact hk

theorem wp_zooGetChildren {z : Option Handle} {h : Handle} {path : String}
    {k : Reply (.zooGetChildren z path) → Code α} (hz : z = some h) (hpath : path = S.path)
    (hg : g.2 = .opened h) (hnode : g.1 .node = S.name i)
    (hk : ∀ r, (callerContract S i).wp (k r) post (g.1, .watched h)) :
    (callerContract S i).wp (.ask (.zooGetChildren z path) k) post g := by
  subst hz hpath
  refine ⟨⟨⟨h, rfl, hg⟩, rfl, hnode⟩, ?_⟩
  rintro r g' ⟨h', heq, rfl⟩
  cases heq
  exact hk r

end rules

section calls

variable {S : Setup ι} {i : ι} {g : Ghost}

theorem runStateIs_spec (state : Program.State) (post : Bool → Ghost → Prop)
    (h : post (decide (g.1 .runState = state)) g) : (callerContract S i).wp (runStateIs state) post g := by
  simp only [runStateIs, load, request, wp_bind, wp_load, wp_done, wp_pure, ne_eq, reduceCtorEq, not_false_eq_true]
  exact h

theorem resetHandle_none (hg : g.1 .zkhandlePtr = none) :
    (callerContract S i).wp resetHandle (fun _ g' => g' = (Function.update g.1 .zkhandlePtr none, g.2)) g := by
  simp only [resetHandle, load, store, zookeeperClose, request, wp_bind, wp_load, wp_store, wp_done, hg, CallerPre,
    wp_pure, ne_eq, reduceCtorEq, not_false_eq_true]
  exact ⟨trivial, trivial⟩

theorem resetHandle_some {h : Handle} (hg : g.1 .zkhandlePtr = some h) (hs : g.2.handle = some h) :
    (callerContract S i).wp resetHandle (fun _ g' => g' = (Function.update g.1 .zkhandlePtr none, .closed)) g := by
  simp only [resetHandle, load, store, zookeeperClose, request, wp_bind, wp_load, wp_store, wp_done, hg, CallerPre,
    wp_zookeeperClose, ne_eq, reduceCtorEq, not_false_eq_true]
  exact ⟨trivial, hs, trivial⟩

theorem Rest.handle (hg : Rest S i g) :
    g.1 .zkhandlePtr = none ∧ g.2 = .closed ∨ ∃ h, g.1 .zkhandlePtr = some h ∧ g.2.handle = some h := by
  rw [Rest] at hg
  split at hg
  · exact Or.inl hg
  · exact Or.inl hg
  · obtain ⟨-, -, h, hz, hs⟩ := hg
    exact Or.inr ⟨h, hz, by rw [hs]; rfl⟩
  · obtain ⟨h, hz, hs⟩ := hg
    exact Or.inr ⟨h, hz, by rw [hs]; rfl⟩
  · cases hg

/-- Between two calls a manager that is not active has no session. -/
theorem isActive_rest (hg : Rest S i g) :
    (callerContract S i).wp isActive
      (fun active g' => g' = g ∧ (¬active → g.1 .zkhandlePtr = none ∧ g.2 = .closed)) g := by
  simp only [isActive, wp_bind]
  refine runStateIs_spec _ _ ?_
  simp only [wp_ite, wp_pure, wp_bind, decide_eq_true_eq, not_true, false_implies, and_true]
  refine ⟨fun _ => trivial, fun hinit => runStateIs_spec _ _ ⟨fun _ => rfl, fun hrun => ?_⟩⟩
  rw [decide_eq_true_eq] at hrun
  refine runStateIs_spec _ _ ⟨rfl, fun _ => ?_⟩
  rw [Rest] at hg
  split at hg
  · exact hg
  · exact hg
  · exact absurd ‹_› hinit
  · exact absurd ‹_› hrun
  · cases hg

theorem leave_rest {state : Program.State} (hstate : state = .stopped ∨ state = .unKnown) (hg : Rest S i g) :
    (callerContract S i).wp (leave state) (fun _ g' => Rest S i g') g := by
  have hclosed : ∀ m : Manager,
      Rest S i (Function.update (Function.update m .zkhandlePtr none) .runState state, .closed) := by
    intro m
    rcases hstate with rfl | rfl <;> exact ⟨rfl, rfl⟩
  simp only [leave, clearEventHandlers, store, request, wp_bind, wp_store, wp_done, wp_pure, CallerPre]
  refine ⟨trivial, ?_⟩
  rcases hg.handle with ⟨hz, hs⟩ | ⟨h, hz, hs⟩
  · refine wp_mono (resetHandle_none hz) ?_
    rintro - g' rfl
    exact ⟨trivial, by rw [hs]; exact hclosed _⟩
  · refine wp_mono (resetHandle_some hz hs) ?_
    rintro - g' rfl
    exact ⟨trivial, hclosed _⟩

theorem register_rest (handler : EventHandler) (hg : Rest S i g) :
    (callerContract S i).wp (register handler) (fun _ g' => Rest S i g') g := by
  simp only [register, load, store, request, wp_bind, wp_load, wp_store, wp_done, wp_pure, CallerPre, ne_eq,
    reduceCtorEq, not_false_eq_true]
  exact ⟨trivial, hg⟩

/-- Unless a manager is active it has no session, and Initialize opens one. -/
theorem initializeManager_rest (hosts : String) (timeout : Nat) (hg : Rest S i g) :
    (callerContract S i).wp (initializeManager hosts S.path (S.name i) timeout) (fun _ g' => Rest S i g') g := by
  simp only [initializeManager, wp_bind]
  refine wp_mono (isActive_rest hg) ?_
  rintro active g' ⟨rfl, hinactive⟩
  simp only [wp_ite, wp_pure]
  refine ⟨fun _ => hg, fun hnot => ⟨fun _ => hg, fun _ => ?_⟩⟩
  obtain ⟨hz, hs⟩ := hinactive hnot
  simp only [zookeeperInit, store, request, wp_zookeeperInit, wp_done, wp_bind]
  refine ⟨hs, fun h => ?_⟩
  simp only [wp_store, wp_done, CallerPre]
  refine ⟨trivial, trivial, trivial, trivial, ?_⟩
  refine wp_mono (resetHandle_none hz) ?_
  rintro - g' rfl
  exact ⟨trivial, trivial, rfl, rfl, h, rfl, rfl⟩

theorem createOwn_spec {h : Handle} (hz : g.1 .zkhandlePtr = some h) (hs : g.2 = .opened h)
    (hpath : g.1 .path = S.path) (hnode : g.1 .node = S.name i) :
    (callerContract S i).wp (createOwn S.path (S.name i)) (fun res g' => res = zok ∧ g' = (g.1, .created h)) g := by
  simp only [createOwn, load, zooGetChildren, zooExists, zooCreate, request, wp_bind, wp_load, wp_done, ne_eq,
    reduceCtorEq, not_false_eq_true]
  refine wp_zooGetChildren hz hpath hs hnode fun _ => wp_existsChild hz rfl ?_
  simp only [wp_ite, wp_bind, wp_load, wp_done, wp_pure, ne_eq, reduceCtorEq, not_false_eq_true]
  exact ⟨fun _ => wp_zooCreate hz rfl ⟨rfl, rfl⟩, fun h => absurd trivial h⟩

/-- Without a name createNode fails, and otherwise it watches the path and creates the node. -/
theorem createNode_spec {h : Handle} (hz : g.1 .zkhandlePtr = some h) (hs : g.2 = .opened h)
    (hpath : g.1 .path = S.path) (hnode : g.1 .node = S.name i) :
    (callerContract S i).wp (createNode S.path (S.name i))
      (fun res g' => res ≠ zok ∧ g' = g ∨ res = zok ∧ g' = (g.1, .created h)) g := by
  simp only [createNode, load, zooExists, request, wp_bind, wp_load, wp_done, wp_ite, wp_pure, ne_eq, reduceCtorEq,
    not_false_eq_true]
  have hhandle : g.2.handle = some h := by rw [hs]; rfl
  refine ⟨fun _ => wp_existsPath hz hhandle ?_, fun _ => Or.inl ⟨by decide, trivial⟩⟩
  refine ⟨fun h => absurd h (by decide), fun _ => ?_⟩
  exact wp_mono (createOwn_spec hz hs hpath hnode) fun _ _ h => Or.inr h

theorem start_rest (hg : Rest S i g) : (callerContract S i).wp start (fun _ g' => Rest S i g') g := by
  simp only [start, wp_bind]
  refine runStateIs_spec _ _ ?_
  simp only [wp_ite, wp_pure, decide_eq_true_eq]
  refine ⟨fun hinit => ?_, fun _ => hg⟩
  have hrest := hg
  rw [Rest, hinit] at hrest
  obtain ⟨hpath, hnode, h, hz, hs⟩ := hrest
  simp only [load, store, request, wp_bind, wp_load, wp_done, hpath, hnode, ne_eq, reduceCtorEq, not_false_eq_true]
  refine wp_mono (createNode_spec hz hs hpath hnode) ?_
  rintro res g' (⟨hres, rfl⟩ | ⟨rfl, rfl⟩)
  · simp only [wp_ite, wp_pure, hres]
    exact ⟨fun h => h.elim, fun _ => hg⟩
  · simp only [wp_ite, wp_bind, wp_store, wp_done, wp_pure, CallerPre]
    exact ⟨fun _ => ⟨trivial, trivial, h, hz, rfl⟩, fun h => absurd trivial h⟩

theorem call_rest {call : Call} (hc : Calls S i call) (hg : Rest S i g) :
    (callerContract S i).wp call.code (fun _ g' => Rest S i g') g := by
  cases hc with
  | initializeManager hosts timeout => exact initializeManager_rest hosts timeout hg
  | start => exact start_rest hg
  | register handler => exact register_rest handler hg
  | stop => exact leave_rest (Or.inl rfl) hg
  | deInitialize => exact leave_rest (Or.inr rfl) hg

end calls

section callbacks

variable {S : Setup ι} {i : ι} {p : Phase}

theorem callHandlers_spec (isMaster : Bool) (handlers : List EventHandler) :
    (callbackContract S i).wp (callHandlers isMaster handlers) (fun _ p' => p' = p) p := by
  induction handlers with
  | nil => exact rfl
  | cons handler handlers ih =>
      refine ⟨trivial, ?_⟩
      rintro ⟨⟩ p' rfl
      exact ih

theorem triggerMasterEvent_spec (isMaster : Bool) :
    (callbackContract S i).wp (triggerMasterEvent isMaster) (fun _ p' => p' = p) p := by
  refine ⟨trivial, ?_⟩
  rintro handlers p' rfl
  exact callHandlers_spec isMaster handlers

/-- The callback stores the mode that the first child decides, if there is one. -/
theorem onChildEvent_settled (h : Handle) :
    (callbackContract S i).wp (onChildEvent h S.path) (fun _ p' => p' = .settled) (.toRead h) := by
  refine ⟨⟨⟨h, rfl, rfl⟩, rfl⟩, ?_⟩
  rintro ⟨res, _ | ⟨first, children⟩⟩ p' ⟨rfl, rfl⟩
  · exact rfl
  · refine ⟨⟨first, rfl⟩, ?_⟩
    rintro node p' ⟨rfl, rfl⟩
    refine ⟨⟨first, rfl, ?_⟩, ?_⟩
    · simp only [modeFor, decide_eq_true_eq]
    · rintro ⟨⟩ p' rfl
      exact triggerMasterEvent_spec _

theorem childEvent_settled (rounds : Nat) (h : Handle) (state : Int) :
    (callbackContract S i).wp (Call.watcher rounds h zooChildEvent state S.path).code
      (fun _ p' => p' = .settled) (.toRead h) := by
  simp only [Call.code, wp_bind]
  exact onChildEvent_settled h

/-- An event of a session that goes on changes nothing. -/
theorem sessionEvent_settled {rounds : Nat} {h : Handle} {state : Int} (hexpired : state ≠ zooExpiredSessionState)
    (hauth : state ≠ zooAuthFailedState) (hother : state ≠ 999) :
    (callbackContract S i).wp (Call.watcher rounds h zooSessionEvent state "").code
      (fun _ p' => p' = .settled) .settled := by
  simp [Call.code, watcher, onSessionEvent, hexpired, hauth, hother]

end callbacks

end StudyNotes.Cluster.Contracts
