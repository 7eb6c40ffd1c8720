import StudyNotes.Heap.Variants
import StudyNotes.Systems.Transition

namespace StudyNotes.Curl.Program

open Heap.Program Heap.Variants Systems.Transition

/-- A curl_req_t, or a curl_context_t with the events that its poll handle waits for. -/
inductive Block
  | request (reqid : UInt64) (errCode : Int) (buffer : List UInt8)
  | context (sockfd events : Nat) (closing : Bool)
deriving DecidableEq

/-- An easy handle with its options CURLOPT_WRITEDATA and CURLOPT_PRIVATE. The number
tells which of the handles made so far it is. -/
structure Easy where
  number : Nat
  writeData : Addr
  priv : Addr
deriving DecidableEq

/-- The arguments of the callback of the user. -/
structure Report where
  status : Nat
  msg : List UInt8
  reqid : UInt64
deriving DecidableEq

/-- The client after StartPoll with a callback, the multi handle and the loop: the transfers that run,
the messages that curl_multi_info_read will return, the pointers that were assigned to
sockets, and the contexts that uv_close was called for. -/
structure State where
  mem : Mem Block
  reqid : UInt64
  timer : Option Int
  performing : Bool
  sent : Nat
  running : List Easy
  done : List (Easy × Nat)
  sockets : List (Nat × Addr)
  closing : List (Nat × Addr)
  reports : List Report

def requestSize : Nat := 48
def contextSize : Nat := 176

section Memory

def Block.asRequest : Block → Option (UInt64 × Int × List UInt8)
  | .request reqid errCode buffer => some (reqid, errCode, buffer)
  | _ => none

def Block.asContext : Block → Option (Nat × Nat × Bool)
  | .context sockfd events closing => some (sockfd, events, closing)
  | _ => none

def callbackGetHead (buf : List UInt8) (userp : Addr) : HeapM Block Nat := do
  if buf.length > 0 then
    assert (userp ≠ 0)
    let (reqid, errCode, buffer) ← loadAs Block.asRequest userp
    store userp (.request reqid errCode (buffer ++ buf))
    return buf.length
  else return buf.length

/-- The part of check_multi_info up to the call of the callback. -/
def takeResponse (strerror : Nat → List UInt8) (respData : Addr) (rc : Nat) : HeapM Block Report := do
  assert (respData ≠ 0)
  let (reqid, errCode, buffer) ← loadAs Block.asRequest respData
  let buffer := if rc ≠ 0 then strerror rc else buffer
  store respData (.request reqid errCode buffer)
  return ⟨rc, buffer, reqid⟩

def createCurlContext (A : Allocator Block) (sockfd : Nat) : HeapM Block Addr :=
  malloc A contextSize (fun _ => .context sockfd 0 false)

def uvPollStart (context : Addr) (events : Nat) : HeapM Block Unit := do
  let (sockfd, _, closing) ← loadAs Block.asContext context
  assert (closing = false)
  store context (.context sockfd events closing)

def uvPollStop (context : Addr) : HeapM Block Unit := do
  let (sockfd, _, closing) ← loadAs Block.asContext context
  store context (.context sockfd 0 closing)

/-- A handle must not be closed twice. -/
def destroyCurlContext (context : Addr) : HeapM Block Unit := do
  let (sockfd, events, closing) ← loadAs Block.asContext context
  assert (closing = false)
  store context (.context sockfd events true)

end Memory

section Client

variable (A : Allocator Block) (strerror : Nat → List UInt8)

def onMem {α : Type} (s : State) (x : HeapM Block α) : Except Fault (α × State) := do
  let (v, m) ← x s.mem
  return (v, { s with mem := m })

/-- curl_multi_add_handle, for a new easy handle with both options set to resp. -/
def addHandle (s : State) (resp : Addr) : State :=
  { s with sent := s.sent + 1, running := s.running ++ [⟨s.sent, resp, resp⟩] }

def sendGet (s : State) : Except Fault State := do
  let s := { s with reqid := s.reqid + 1 }
  let (resp, s) ← onMem s (malloc A requestSize (fun _ => .request s.reqid 0 []))
  return addHandle s resp

def sendGets (s : State) : Nat → Except Fault State
  | 0 => .ok s
  | n + 1 => do
      let s ← sendGet A s
      sendGets s n

/-- One pass of the loop of check_multi_info. The callback may send further requests. -/
def deliver (s : State) (easyHandle : Easy) (rc sends : Nat) : Except Fault State := do
  let (report, s) ← onMem s (takeResponse strerror easyHandle.priv rc)
  let s ← sendGets A { s with reports := s.reports ++ [report] } sends
  let (_, s) ← onMem s (free easyHandle.priv)
  return s

/-- The list tells how many requests each call of the callback sends. -/
def checkMultiInfo : List (Easy × Nat) → List Nat → State → Except Fault State
  | [], _, s => .ok s
  | (easyHandle, rc) :: rest, sends, s => do
      let s ← deliver A strerror { s with done := rest } easyHandle rc (sends.headD 0)
      checkMultiInfo rest sends.tail s

def startTimer (s : State) (timeoutMs : Int) : State :=
  if timeoutMs < 0 then { s with timer := none }
  else { s with timer := some (if timeoutMs = 0 then 1 else timeoutMs) }

/-- What libcurl asks for. The code aborts on any other number. -/
inductive Action
  | pollIn
  | pollOut
  | pollInout
  | pollRemove
deriving DecidableEq

def uvReadable : Nat := 1

def uvWritable : Nat := 2

/-- The events to poll for. CURL_POLL_INOUT has the bits of CURL_POLL_IN and CURL_POLL_OUT. -/
def Action.events : Action → Nat
  | .pollIn => 0 ||| uvReadable
  | .pollOut => 0 ||| uvWritable
  | .pollInout => 0 ||| uvReadable ||| uvWritable
  | .pollRemove => 0

def assign (sockets : List (Nat × Addr)) (sockfd : Nat) (context : Addr) : List (Nat × Addr) :=
  (sockfd, context) :: sockets.filter (fun p => p.1 ≠ sockfd)

/-- The context that was assigned to the socket, or a new one. -/
def pollContext (s : State) (sockfd : Nat) : Except Fault (Addr × State) :=
  match s.sockets.lookup sockfd with
  | some context => .ok (context, s)
  | none => onMem s (createCurlContext A sockfd)

def handleSocket (s : State) (sockfd : Nat) : Action → Except Fault State
  | .pollRemove =>
      match s.sockets.lookup sockfd with
      | none => .ok s
      | some context => do
          let (_, s) ← onMem s (uvPollStop context)
          let (_, s) ← onMem s (destroyCurlContext context)
          return { s with
            sockets := s.sockets.filter (fun p => p.1 ≠ sockfd)
            closing := (sockfd, context) :: s.closing }
  | action => do
      let (context, s) ← pollContext A s sockfd
      let (_, s) ← onMem { s with sockets := assign s.sockets sockfd context } (uvPollStart context action.events)
      return s

/-- The loop calls curl_perform for a poll handle, or on_timer_cb. -/
inductive Trigger
  | poll (context : Addr)
  | timer
deriving DecidableEq

/-- The start of curl_perform and of on_timer_cb. A timer without a repeat stops. -/
def enterPerform (s : State) : Trigger → Except Fault State
  | .poll context => do
      let (_, s) ← onMem s (loadAs Block.asContext context)
      return { s with performing := true }
  | .timer => return { s with performing := true, timer := none }

/-- What happens, in the order of the loop: a call of the user, one of the two callbacks
of the loop that call curl_multi_socket_action, what libcurl does in it or in another
call, and the check_multi_info at the end of the callback. -/
inductive Event
  | send
  | enter (trigger : Trigger)
  | write (easy : Easy) (buf : List UInt8)
  | finish (easy : Easy) (rc : Nat)
  | socket (sockfd : Nat) (action : Action)
  | timeout (timeoutMs : Int)
  | leave (sends : List Nat)
  | closed (sockfd : Nat) (context : Addr)

def Event.exec (s : State) : Event → Except Fault State
  | .send => sendGet A s
  | .enter trigger => enterPerform s trigger
  | .write easy buf => do
      let (_, s) ← onMem s (callbackGetHead buf easy.writeData)
      return s
  | .finish easy rc => return { s with running := s.running.erase easy, done := s.done ++ [(easy, rc)] }
  | .socket sockfd action => handleSocket A s sockfd action
  | .timeout timeoutMs => return startTimer s timeoutMs
  | .leave sends => checkMultiInfo A strerror s.done sends { s with performing := false }
  | .closed sockfd context => do
      let (_, s) ← onMem s (free context)
      return { s with closing := s.closing.erase (sockfd, context) }

/-- What libuv and libcurl promise: only active poll handles and timers are called, and
libcurl writes to and ends the transfers that run. -/
def Enabled (s : State) : Event → Prop
  | .send => s.performing = false
  | .enter .timer => s.performing = false ∧ s.timer ≠ none
  | .enter (.poll context) => s.performing = false ∧ ∃ sockfd, (sockfd, context) ∈ s.sockets
  | .write easy _ | .finish easy _ => s.performing = true ∧ easy ∈ s.running
  | .socket _ _ | .timeout _ => True
  | .leave _ => s.performing = true
  | .closed sockfd context => s.performing = false ∧ (sockfd, context) ∈ s.closing

end Client

def State.init : State where
  mem := emptyMem
  reqid := 0
  timer := none
  performing := false
  sent := 0
  running := []
  done := []
  sockets := []
  closing := []
  reports := []

def system (A : Allocator Block) (strerror : Nat → List UInt8) : System State Event where
  init s := s = State.init
  step s e s' := Enabled s e ∧ e.exec A strerror s = .ok s'

end StudyNotes.Curl.Program
