import StudyNotes.Systems.Interaction
import Mathlib.Logic.Function.Basic

namespace StudyNotes.Cluster.Program

open Systems.Interaction

inductive State
  | unKnown
  | initialized
  | started
  | running
  | stopped
deriving DecidableEq

inductive NodeMode
  | leader
  | follower
  | other
deriving DecidableEq

/-- A zhandle_t pointer that is not null. -/
abbrev Handle := Nat

/-- The event handlers that a user registers, by name. -/
abbrev EventHandler := Nat

/-- The fields of a manager. -/
inductive Field
  | runState
  | nodeMode
  | zkhandlePtr
  | hosts
  | path
  | node
  | timeout
  | eventHandlers
deriving DecidableEq

abbrev Field.type : Field → Type
  | .runState => State
  | .nodeMode => NodeMode
  | .zkhandlePtr => Option Handle
  | .hosts | .path | .node => String
  | .timeout => Nat
  | .eventHandlers => List EventHandler

abbrev Manager := (f : Field) → f.type

def Manager.init : Manager
  | .runState => State.unKnown
  | .nodeMode => NodeMode.other
  | .zkhandlePtr => (none : Option Handle)
  | .hosts | .path | .node => ""
  | .timeout => (10 : Nat)
  | .eventHandlers => ([] : List EventHandler)

inductive Request
  | load (f : Field)
  | store (f : Field) (v : f.type)
  | onMasterEvent (handler : EventHandler) (isMaster : Bool)
  | zookeeperInit (hosts : String) (timeout : Nat)
  | zookeeperClose (h : Handle)
  | zooExists (h : Option Handle) (path : String)
  | zooCreate (h : Option Handle) (path value : String) (ephemeral : Bool)
  | zooGetChildren (h : Option Handle) (path : String)

abbrev Reply : Request → Type
  | .load f => f.type
  | .store _ _ | .onMasterEvent _ _ | .zookeeperClose _ => Unit
  | .zookeeperInit _ _ => Option Handle
  | .zooExists _ _ | .zooCreate _ _ _ _ => Int
  | .zooGetChildren _ _ => Int × List String

abbrev Code := Prog Request Reply

def zok : Int := 0
def znonode : Int := -101
def zooExpiredSessionState : Int := -112
def zooAuthFailedState : Int := -113
def zooSessionEvent : Int := -1
def zooChildEvent : Int := 4

def tag : String := "xunce tech adc"

@[simp] def load (f : Field) : Code f.type := request (Request.load f)

@[simp] def store (f : Field) (v : f.type) : Code Unit := request (Request.store f v)

@[simp] def onMasterEvent (handler : EventHandler) (isMaster : Bool) : Code Unit :=
  request (Request.onMasterEvent handler isMaster)

@[simp] def zookeeperInit (hosts : String) (timeout : Nat) : Code (Option Handle) :=
  request (Request.zookeeperInit hosts timeout)

@[simp] def zookeeperClose (h : Handle) : Code Unit := request (Request.zookeeperClose h)

@[simp] def zooExists (h : Option Handle) (path : String) : Code Int := request (Request.zooExists h path)

@[simp] def zooCreate (h : Option Handle) (path value : String) (ephemeral : Bool) : Code Int :=
  request (Request.zooCreate h path value ephemeral)

/-- The children of a node, with the watch set. -/
@[simp] def zooGetChildren (h : Option Handle) (path : String) : Code (Int × List String) :=
  request (Request.zooGetChildren h path)

/-- Emptying the shared pointer closes the handle that it held. -/
def resetHandle : Code Unit := do
  let h ← load .zkhandlePtr
  store .zkhandlePtr none
  match h with
  | none => pure ()
  | some h => zookeeperClose h

def runStateIs (state : State) : Code Bool := do
  return (← load .runState) = state

def isActive : Code Bool := do
  if ← runStateIs .initialized then
    return true
  else if ← runStateIs .running then
    return true
  else
    runStateIs .started

def initializeManager (hosts path node : String) (timeout : Nat) : Code Int := do
  if ← isActive then
    return 0
  else if hosts = "" ∨ path = "" then
    return -1
  else
    match ← zookeeperInit hosts timeout with
    | none => return -2
    | some h =>
      store .hosts hosts
      store .path path
      store .node node
      store .timeout timeout
      resetHandle
      store .zkhandlePtr (some h)
      store .runState .initialized
      return 0

/-- The non-empty parts between the slashes, with the part read so far. -/
def splitFrom (part : List Char) : List Char → List String
  | [] => if part = [] then [] else [String.ofList part]
  | ch :: rest =>
      if ch = '/' then (if part = [] then [] else [String.ofList part]) ++ splitFrom [] rest
      else splitFrom (part ++ [ch]) rest

def split (path : String) : List String := splitFrom [] path.toList

/-- The loop that creates the missing nodes of the path, with the path so far and
the last result. -/
def createPath (zkPath : String) (res : Int) : List String → Code Int
  | [] => return res
  | node :: nodes => do
      let zkPath := zkPath ++ "/" ++ node
      let res ← zooExists (← load .zkhandlePtr) zkPath
      if res = znonode then
        let res ← zooCreate (← load .zkhandlePtr) zkPath tag false
        if res ≠ zok then
          return -2
        else
          createPath zkPath res nodes
      else
        createPath zkPath res nodes

/-- The second half of createNode: the watch on the path, then the node itself. -/
def createOwn (path node : String) : Code Int := do
  let _ ← zooGetChildren (← load .zkhandlePtr) (← load .path)
  let zkPath := path ++ "/" ++ node
  let res ← zooExists (← load .zkhandlePtr) zkPath
  if res = znonode then
    zooCreate (← load .zkhandlePtr) zkPath tag true
  else
    return res

def createNode (path node : String) : Code Int := do
  if (← load .zkhandlePtr).isSome ∧ path ≠ "" ∧ node ≠ "" then
    let res ← zooExists (← load .zkhandlePtr) path
    -- the results up to here are overwritten in the second half
    if res = znonode then
      let _ ← createPath "" res (split path)
      createOwn path node
    else
      createOwn path node
  else
    return -1

def start : Code Int := do
  if ← runStateIs .initialized then
    let res ← createNode (← load .path) (← load .node)
    if res = zok then
      store .runState .started
      store .runState .running
    return res
  else
    return -1

def register (handler : EventHandler) : Code Int := do
  store .eventHandlers ((← load .eventHandlers) ++ [handler])
  return 0

def clearEventHandlers : Code Unit := store .eventHandlers []

/-- The common body of Stop and DeInitialize. -/
def leave (state : State) : Code Int := do
  clearEventHandlers
  resetHandle
  store .runState state
  return 0

def stop : Code Int := leave .stopped

def deInitialize : Code Int := leave .unKnown

def getMode : Code NodeMode := load .nodeMode

def callHandlers (isMaster : Bool) : List EventHandler → Code Unit
  | [] => return ()
  | handler :: handlers => do
      onMasterEvent handler isMaster
      callHandlers isMaster handlers

def triggerMasterEvent (isMaster : Bool) : Code Unit := do
  callHandlers isMaster (← load .eventHandlers)

def onChildEvent (h : Handle) (path : String) : Code Unit := do
  let (res, children) ← zooGetChildren (some h) path
  if res = zok then
    match children with
    | [] => return ()
    | first :: _ =>
      let isMaster := decide ((← load .node) = first)
      store .nodeMode (if isMaster then .leader else .follower)
      triggerMasterEvent isMaster

/-- The loop that reconnects, cut off after a number of rounds. -/
def reconnect : Nat → Code Unit
  | 0 => .diverge
  | rounds + 1 => do
      if (← load .nodeMode) ≠ .other then
        return ()
      else
        store .runState .unKnown
        let _ ← initializeManager (← load .hosts) (← load .path) (← load .node) (← load .timeout)
        let _ ← start
        if ← runStateIs .running then
          reconnect rounds

def onSessionEvent (rounds : Nat) (state : Int) : Code Unit := do
  if state = zooExpiredSessionState ∨ state = zooAuthFailedState ∨ state = 999 then
    store .nodeMode .other
  if state = zooExpiredSessionState then
    reconnect rounds

def watcher (rounds : Nat) (h : Handle) (eventType state : Int) (path : String) : Code Unit := do
  if eventType = zooSessionEvent then
    onSessionEvent rounds state
  else if eventType = zooChildEvent then
    onChildEvent h path

/-- The calls on a manager and the callbacks of its watcher. -/
inductive Call
  | initializeManager (hosts path node : String) (timeout : Nat)
  | start
  | register (handler : EventHandler)
  | stop
  | deInitialize
  | watcher (rounds : Nat) (h : Handle) (eventType state : Int) (path : String)

def Call.code : Call → Code Int
  | .initializeManager hosts path node timeout => Program.initializeManager hosts path node timeout
  | .start => Program.start
  | .register handler => Program.register handler
  | .stop => Program.stop
  | .deInitialize => Program.deInitialize
  | .watcher rounds h eventType state path => do
      Program.watcher rounds h eventType state path
      return 0

end StudyNotes.Cluster.Program
