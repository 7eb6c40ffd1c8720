import StudyNotes.Heap.Program
import StudyNotes.Systems.Transition

namespace StudyNotes.NodeZk.Program

open Heap.Program Systems.Transition

/-- A uv_poll_t: the descriptor it was made for, and the events that it polls for while
it is active. -/
structure Poll where
  fd : Int
  events : Option Nat
  closing : Bool
deriving DecidableEq

/-- The memory of the poll handles, the member zk_io_poll_hdl, and the handles for which
uv_close was called and the callback was not. -/
structure Polls where
  mem : Mem Poll
  zkIoPollHdl : Addr
  closing : List Addr

/-- A uv_timer_t: before uv_timer_init all its bytes are zero. -/
inductive Timer
  | zeroed
  | stopped
  | active (again : Nat)
  | closing
  | closed
deriving DecidableEq

structure Timeval where
  sec : Nat
  usec : Nat
deriving DecidableEq

def Timeval.millis (tv : Timeval) : Nat := tv.sec * 1000 + tv.usec / 1000

/-- The result of zookeeper_interest, and what it leaves in fd, interest and tv. -/
structure Interest where
  rc : Int
  fd : Int
  interest : Nat
  tv : Timeval
deriving DecidableEq

/-- The functions of the library that get the session of the object. A request stands for zoo_aget and
the others, a query for zoo_state and the others that a property asks. -/
inductive Call
  | interest (zhandle : Option Nat)
  | process (zhandle : Option Nat) (events : Nat)
  | close (zhandle : Option Nat)
  | request (zhandle : Option Nat)
  | query (zhandle : Option Nat)
deriving DecidableEq

/-- What the user does with an object. -/
inductive UserCall
  | request
  | query
  | close
deriving DecidableEq

/-- The argument of realClose. -/
inductive Code
  | user
  | authFailed
  | expired
deriving DecidableEq

inductive Emit
  | closed (code : Code)
  | connected (path : Option (List UInt8))
  | connecting (path : Option (List UInt8))
  | created (path : Option (List UInt8))
  | deleted (path : Option (List UInt8))
  | changed (path : Option (List UInt8))
  | child (path : Option (List UInt8))
  | notwatching (path : Option (List UInt8))
deriving DecidableEq

/-- The object. Sessions are numbered in the order in which they are made. The calls and
what was emitted are listed in order. -/
structure State where
  polls : Polls
  zhandle : Option Nat
  fd : Int
  zkTimer : Timer
  tv : Timeval
  lastActivity : Nat
  isClosed : Bool
  refs : Nat
  opened : Nat
  calls : List Call
  emitted : List Emit

def zookeeperWrite : Nat := 1
def zookeeperRead : Nat := 2
def uvReadable : Nat := 1
def uvWritable : Nat := 2
def zok : Int := 0
def znothing : Int := -117
def pollSize : Nat := 160

section Handles

def uvPollStop (a : Addr) : HeapM Poll Unit := do
  let p ← load a
  store a { p with events := none }

def uvPollStart (a : Addr) (events : Nat) : HeapM Poll Unit := do
  let p ← load a
  assert (p.closing = false)
  store a { p with events := some events }

/-- A handle must not be closed twice. -/
def uvClose (a : Addr) : HeapM Poll Unit := do
  let p ← load a
  assert (p.closing = false)
  store a { p with events := none, closing := true }

def onMem {α : Type} (polls : Polls) (x : HeapM Poll α) : Except Fault (α × Polls) := do
  let (v, m) ← x polls.mem
  return (v, { polls with mem := m })

def stopPoll (polls : Polls) : Except Fault Polls :=
  if polls.zkIoPollHdl ≠ 0 then do
    let (p, polls) ← onMem polls (load polls.zkIoPollHdl)
    if p.events ≠ none then
      let (_, polls) ← onMem polls (uvPollStop polls.zkIoPollHdl)
      return polls
    else return polls
  else return polls

def closePoll (polls : Polls) : Except Fault Polls :=
  if polls.zkIoPollHdl ≠ 0 then do
    let (_, polls) ← onMem polls (uvClose polls.zkIoPollHdl)
    return { polls with zkIoPollHdl := 0, closing := polls.zkIoPollHdl :: polls.closing }
  else return polls

def newPoll (A : Allocator Poll) (fd : Int) (polls : Polls) : Except Fault Polls := do
  let (a, polls) ← onMem polls (malloc A pollSize (fun _ => ⟨fd, none, false⟩))
  return { polls with zkIoPollHdl := a }

def startPoll (events : Nat) (polls : Polls) : Except Fault Polls := do
  let (_, polls) ← onMem polls (uvPollStart polls.zkIoPollHdl events)
  return polls

/-- What realClose does to the handle. -/
def releasePoll (polls : Polls) : Except Fault Polls :=
  if polls.zkIoPollHdl ≠ 0 then do
    let (_, polls) ← onMem polls (uvPollStop polls.zkIoPollHdl)
    closePoll polls
  else return polls

def deleteOnClose (a : Addr) (polls : Polls) : Except Fault Polls := do
  let (_, polls) ← onMem polls (free a)
  return { polls with closing := polls.closing.erase a }

end Handles

section Timers

def uvTimerInit : Timer → Except Fault Timer
  | .zeroed | .closed => .ok .stopped
  | .stopped | .active _ | .closing => .error .assertion

def uvTimerStop : Timer → Timer
  | .active _ => .stopped
  | t => t

/-- On a handle that is being closed this fails and changes nothing. -/
def uvTimerStart (again : Nat) : Timer → Except Fault Timer
  | .zeroed => .error .dangling
  | .stopped | .active _ => .ok (.active again)
  | t => .ok t

def uvCloseTimer : Timer → Except Fault Timer
  | .stopped | .active _ => .ok .closing
  | .zeroed | .closing | .closed => .error .assertion

/-- A timer that does not repeat stops when it fires. -/
def fire : Timer → Timer
  | .active 0 => .stopped
  | t => t

end Timers

section Client

variable (A : Allocator Poll)

def pollEvents (interest : Nat) : Nat :=
  (if interest &&& zookeeperRead ≠ 0 then uvReadable else 0) |||
  (if interest &&& zookeeperWrite ≠ 0 then uvWritable else 0)

/-- What yield does to the handle. -/
def repoll (oldFd : Int) (r : Interest) (polls : Polls) : Except Fault Polls := do
  let polls ← stopPoll polls
  if r.rc ≠ zok then return polls
  else if r.fd = -1 then closePoll polls
  else if oldFd ≠ r.fd then do
    let polls ← closePoll polls
    let polls ← newPoll A r.fd polls
    startPoll (pollEvents r.interest) polls
  else startPoll (pollEvents r.interest) polls

def yield (now : Nat) (r : Interest) (s : State) : Except Fault State :=
  if s.isClosed then return s
  else do
    let polls ← repoll A s.fd r s.polls
    let s := { s with polls := polls, lastActivity := now, fd := r.fd, tv := r.tv, calls := s.calls ++ [.interest s.zhandle] }
    if r.rc ≠ zok ∨ r.fd = -1 then return s
    else do
      let timer ← uvTimerStart r.tv.millis s.zkTimer
      return { s with zkTimer := timer }

def realClose (code : Code) (s : State) : Except Fault State :=
  if s.isClosed then return s
  else
    let s : State := { s with isClosed := true, zkTimer := uvTimerStop s.zkTimer }
    if s.zhandle.isSome then do
      let s : State := { s with zhandle := none, calls := s.calls ++ [.close s.zhandle] }
      let polls ← releasePoll s.polls
      let timer ← uvCloseTimer s.zkTimer
      return { s with polls := polls, zkTimer := timer, emitted := s.emitted ++ [.closed code] }
    else return s

/-- A request is made without a session too, and a property only asks a session. -/
def userCall (s : State) : UserCall → Except Fault State
  | .request => return { s with calls := s.calls ++ [.request s.zhandle] }
  | .query => return if s.zhandle.isSome then { s with calls := s.calls ++ [.query s.zhandle] } else s
  | .close => realClose .user s

/-- The list tells what the listeners of the user do. -/
def doEmit (e : Emit) (user : List UserCall) (s : State) : Except Fault State :=
  user.foldlM userCall { s with emitted := s.emitted ++ [e] }

/-- Where realClose emits, the listeners run at its end. -/
def closeAndListen (code : Code) (user : List UserCall) (s : State) : Except Fault State :=
  if s.isClosed then return s
  else do
    let s ← realClose code s
    user.foldlM userCall s

inductive EventType
  | created
  | deleted
  | changed
  | child
  | session
  | notwatching
  | unknown
deriving DecidableEq

inductive SessionState
  | expired
  | authFailed
  | connecting
  | connected
  | other
deriving DecidableEq

/-- What zookeeper_process calls: main_watcher, or a completion, with what the functions of
the user do there. -/
inductive Notice
  | watcher (type : EventType) (state : SessionState) (path : Option (List UInt8)) (user : List UserCall)
  | completion (user : List UserCall)
deriving DecidableEq

def mainWatcher (type : EventType) (state : SessionState) (path : Option (List UInt8)) (user : List UserCall) (s : State) :
    Except Fault State :=
  match type with
  | .session =>
      match state with
      | .connected => doEmit (.connected path) user s
      | .connecting => doEmit (.connecting path) user s
      | .authFailed => closeAndListen .authFailed user s
      | .expired => closeAndListen .expired user s
      | .other => return s
  | .created => doEmit (.created path) user s
  | .deleted => doEmit (.deleted path) user s
  | .changed => doEmit (.changed path) user s
  | .child => doEmit (.child path) user s
  | .notwatching => doEmit (.notwatching path) user s
  | .unknown => return s

def notify (s : State) : Notice → Except Fault State
  | .watcher type state path user => mainWatcher type state path user s
  | .completion user => user.foldlM userCall s

def processEvents (status : Int) (revents : Nat) : Nat :=
  if status < 0 then zookeeperRead ||| zookeeperWrite
  else (if revents &&& uvReadable ≠ 0 then zookeeperRead else 0) |||
    (if revents &&& uvWritable ≠ 0 then zookeeperWrite else 0)

/-- The list tells what zookeeper_process calls before it returns rc. -/
def zkIoCb (w : Addr) (status : Int) (revents : Nat) (notices : List Notice) (rc : Int) (now : Nat) (r : Interest)
    (s : State) : Except Fault State := do
  let (_, polls) ← onMem s.polls (load w)
  let s := { s with polls := polls, calls := s.calls ++ [.process s.zhandle (processEvents status revents)] }
  let s ← notices.foldlM notify s
  if rc = znothing then realClose .expired s else yield A now r s

def timeout (s : State) : Nat := s.lastActivity + s.tv.millis

def zkTimerCb (now : Nat) (r : Interest) (s : State) : Except Fault State :=
  if timeout s < now then yield A now r s
  else do
    let timer ← uvTimerStart (timeout s - now + 1) s.zkTimer
    return { s with zkTimer := timer }

/-- zookeeper_init makes a session or returns 0. -/
def realInit (made : Bool) (now : Nat) (r : Interest) (s : State) : Except Fault State :=
  let s := if s.zhandle.isSome then { s with zkTimer := uvTimerStop s.zkTimer } else s
  if made then do
    let s := { s with zhandle := some s.opened, opened := s.opened + 1, refs := s.refs + 1 }
    let timer ← uvTimerInit s.zkTimer
    yield A now r { s with zkTimer := timer }
  else return { s with zhandle := none }

/-- Unref must not be called more often than Ref. -/
def timerClosed (s : State) : Except Fault State :=
  if s.refs = 0 then .error .assertion else return { s with zkTimer := .closed, refs := s.refs - 1 }

/-- The calls of the user, and the callbacks of the loop. What the listeners do at the end of a close, they do
in calls of their own after it. Where one may come to yield, what zookeeper_interest returns there is given. -/
inductive Event
  | init (made : Bool) (now : Nat) (r : Interest)
  | user (call : UserCall)
  | io (w : Addr) (status : Int) (revents : Nat) (notices : List Notice) (rc : Int) (now : Nat) (r : Interest)
  | timer (now : Nat) (r : Interest)
  | pollClosed (a : Addr)
  | timerClosed
deriving DecidableEq

def Event.exec (s : State) : Event → Except Fault State
  | .init made now r => realInit A made now r s
  | .user call => userCall s call
  | .io w status revents notices rc now r => zkIoCb A w status revents notices rc now r s
  | .timer now r => zkTimerCb A now r { s with zkTimer := fire s.zkTimer }
  | .pollClosed a => do
      let polls ← deleteOnClose a s.polls
      return { s with polls := polls }
  | .timerClosed => Program.timerClosed s

/-- What is assumed of zookeeper_interest: where it fails it leaves fd alone or at -1. -/
def Keeps (fd : Int) (r : Interest) : Prop := r.rc ≠ zok → r.fd = fd ∨ r.fd = -1

/-- uv_timer_init may be called: init was not called before, or the timer has been closed since. -/
def TimerFree (s : State) : Prop := s.zkTimer = .zeroed ∨ s.zkTimer = .closed

/-- The loop calls active handles and the callbacks of closed ones. For a second session realInit stops the
timer and initialises it again, which it must not, so the user calls init only while the timer is free. -/
def Enabled (s : State) : Event → Prop
  | .init _ _ r => TimerFree s ∧ Keeps s.fd r
  | .user _ => True
  | .io w _ _ _ _ _ r => (∃ p, s.polls.mem.cells.lookup w = some p ∧ p.events ≠ none) ∧ Keeps s.fd r
  | .timer _ r => (∃ again, s.zkTimer = .active again) ∧ Keeps s.fd r
  | .pollClosed a => a ∈ s.polls.closing
  | .timerClosed => s.zkTimer = .closing

/-- Where zookeeper_interest gives a descriptor, there is a time to wait. -/
def Event.Waits : Event → Prop
  | .init _ _ r | .io _ _ _ _ _ _ r | .timer _ r => r.rc = zok → r.fd ≠ -1 → 0 < r.tv.millis
  | .user _ | .pollClosed _ | .timerClosed => True

end Client

def State.init : State where
  polls := ⟨emptyMem, 0, []⟩
  zhandle := none
  fd := -1
  zkTimer := .zeroed
  tv := ⟨0, 0⟩
  lastActivity := 0
  isClosed := false
  refs := 0
  opened := 0
  calls := []
  emitted := []

/-- It is left open whether there always is a time to wait. -/
def system (A : Allocator Poll) (waits : Prop) : System State Event where
  init s := s = State.init
  step s e s' := Enabled s e ∧ (waits → e.Waits) ∧ e.exec A s = .ok s'

end StudyNotes.NodeZk.Program
