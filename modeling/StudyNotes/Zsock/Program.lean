import StudyNotes.Systems.Transition
import Mathlib.Logic.Function.Basic

namespace StudyNotes.Zsock.Program

open Systems.Transition

def zmqPollin : BitVec 32 := 1

def zmqPollout : BitVec 32 := 2

def uvReadable : BitVec 32 := 1

def uvWritable : BitVec 32 := 2

/-- A ZeroMQ socket: the value of ZMQ_EVENTS as of the commands that have been
processed, and the commands from the I/O threads that have not, each with the value
after it. None stands for a socket whose context is gone. The file descriptor of the
socket is readable while there are commands. -/
structure Socket where
  flags : Option (BitVec 32)
  mailbox : List (Option (BitVec 32))
deriving DecidableEq, Repr

/-- Asking for ZMQ_EVENTS processes the commands. -/
def Socket.process (z : Socket) : Socket := ⟨z.mailbox.getLastD z.flags, []⟩

inductive Handle
  | prepare
  | check
  | idle
  | poll
deriving DecidableEq, Repr

/-- A libuv handle, with whether its data is still the uv_zsock_t. -/
structure HandleState where
  active : Bool
  closing : Bool
  data : Bool
deriving DecidableEq, Repr

/-- Where the loop is in an iteration: before the prepare handles, before it waits
for I/O, before the check handles, and after them. -/
inductive Phase
  | turn
  | prepared
  | polled
  | checked
deriving DecidableEq, Repr

/-- A uv_zsock_t after uv_zsock_init, with its socket and its loop. -/
structure State where
  phase : Phase
  socket : Socket
  cb : Bool
  events : BitVec 32
  closeCb : Bool
  handles : Handle → HandleState

def State.set (s : State) (h : Handle) (active : Bool) : State :=
  { s with handles := Function.update s.handles h { s.handles h with active := active } }

def sGetRevents (z : Socket) (events : BitVec 32) : BitVec 32 × Socket :=
  match z.process.flags with
  | none => (events, z.process)
  | some zmqEvents =>
      let revents : BitVec 32 := 0
      let revents := if zmqEvents &&& zmqPollout ≠ 0 then revents ||| (events &&& uvWritable) else revents
      let revents := if zmqEvents &&& zmqPollin ≠ 0 then revents ||| (events &&& uvReadable) else revents
      (revents, z.process)

def sPrepareCb (s : State) : State :=
  let (revents, socket) := sGetRevents s.socket s.events
  let s := { s with socket := socket }
  if revents ≠ 0 then s.set .idle true else s

/-- The second value is the argument of the call of cb, if there is one. -/
def sCheckCb (s : State) : State × Option (BitVec 32) :=
  let s := s.set .idle false
  let (revents, socket) := sGetRevents s.socket s.events
  let s := { s with socket := socket }
  if revents ≠ 0 then (s, some revents) else (s, none)

def uvZsockInit (z : Socket) : State where
  phase := .turn
  socket := z
  cb := false
  events := 0
  closeCb := false
  handles _ := ⟨false, false, true⟩

def uvZsockStart (s : State) (events : BitVec 32) : State :=
  let s := { s with cb := true, events := events }
  ((s.set .prepare true).set .check true).set .poll (decide (events ≠ 0))

def uvZsockStop (s : State) : State :=
  (((s.set .prepare false).set .check false).set .idle false).set .poll false

/-- The second value is whether close_cb is called. -/
def sCloseCb (s : State) (h : Handle) : State × Bool :=
  let s := { s with handles := Function.update s.handles h { s.handles h with closing := false, data := false } }
  let handles := s.handles
  if (handles .prepare).data = false ∧ (handles .check).data = false ∧ (handles .idle).data = false ∧
      (handles .poll).data = false then
    (s, s.closeCb)
  else (s, false)

/-- Closing a handle stops it. -/
def State.uvClose (s : State) (h : Handle) : State :=
  { s with handles := Function.update s.handles h { s.handles h with active := false, closing := true } }

def uvZsockClose (s : State) (cb : Bool) : State :=
  let s := { s with closeCb := cb }
  (((s.uvClose .prepare).uvClose .check).uvClose .idle).uvClose .poll

/-- The handles may be started and closed. -/
def State.Open (s : State) : Prop := ∀ h, (s.handles h).closing = false ∧ (s.handles h).data = true

/-- The loop does not wait for other handles: it never waits while there is an idle
handle or one to close. -/
def State.Awake (s : State) : Prop :=
  (s.handles .idle).active = true ∨ (∃ h, (s.handles h).closing = true) ∨
    (s.handles .poll).active = true ∧ s.socket.mailbox ≠ []

inductive Event
  | arrive (flags : Option (BitVec 32))
  | use (socket : Socket)
  | start (events : BitVec 32)
  | stop
  | close (cb : Bool)
  | prepare
  | poll (other : Bool)
  | check (call : Option (BitVec 32))
  | closed (h : Handle) (call : Bool)
  | next
deriving DecidableEq, Repr

/-- A command can arrive at any time. The user's calls come from callbacks of the
loop other than those of prepare handles. A use of the socket may process some of
the commands. -/
inductive Step : State → Event → State → Prop
  | arrive (s) (flags : Option (BitVec 32)) :
      Step s (.arrive flags) { s with socket := ⟨s.socket.flags, s.socket.mailbox ++ [flags]⟩ }
  | use (s) (socket : Socket) (hp : s.phase ≠ .prepared) (hm : socket.mailbox <:+ s.socket.mailbox) :
      Step s (.use socket) { s with socket := socket }
  | start (s) (events : BitVec 32) (hp : s.phase ≠ .prepared) (ho : s.Open) :
      Step s (.start events) (uvZsockStart s events)
  | stop (s) (hp : s.phase ≠ .prepared) : Step s .stop (uvZsockStop s)
  | close (s) (cb : Bool) (hp : s.phase ≠ .prepared) (ho : s.Open) : Step s (.close cb) (uvZsockClose s cb)
  | prepare (s) (hp : s.phase = .turn) :
      Step s .prepare { (if (s.handles .prepare).active then sPrepareCb s else s) with phase := .prepared }
  | poll (s) (other : Bool) (hp : s.phase = .prepared) (hw : other = true ∨ s.Awake) :
      Step s (.poll other) { s with phase := .polled }
  | check (s) (hp : s.phase = .polled) (ha : (s.handles .check).active = true) :
      Step s (.check (sCheckCb s).2) { (sCheckCb s).1 with phase := .checked }
  | checkNone (s) (hp : s.phase = .polled) (ha : (s.handles .check).active = false) :
      Step s (.check none) { s with phase := .checked }
  | closed (s) (h : Handle) (hp : s.phase = .checked) (hc : (s.handles h).closing = true) :
      Step s (.closed h (sCloseCb s h).2) (sCloseCb s h).1
  | next (s) (hp : s.phase = .checked) : Step s .next { s with phase := .turn }

def system : System State Event where
  init s := ∃ z, s = uvZsockInit z
  step := Step

end StudyNotes.Zsock.Program
