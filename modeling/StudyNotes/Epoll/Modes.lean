import StudyNotes.Epoll.Program

namespace StudyNotes.Epoll.Modes

open Systems.Transition Program

/-- EPOLL_LT, and EPOLL_ET with epoll_et_loop or epoll_et_once. -/
inductive Trigger
  | level
  | edgeLoop
  | edgeOnce
deriving DecidableEq

/-- The arguments epoll_type and block_type, and which of the two calls for EPOLL_ET is
compiled. -/
structure Mode where
  trigger : Trigger
  nonblock : Bool
deriving DecidableEq

def maxEpollEvents : Nat := 20

/-- The state of the other server, and the connections on which recv can fail with an
error of its own. -/
structure State (κ : Type) extends Program.State κ where
  reset : κ → Bool

/-- The connections, the arrivals and accept are those of the other server. -/
inductive Event (κ : Type)
  | shared (e : Program.Event κ)
  | reset (c : κ)
  | wait (fds : List (Fd κ))
  | enter (c : κ)
  | recv (c : κ) (chunk : List UInt8)
  | endOfStream (c : κ)
  | again (c : κ)
  | error (c : κ)

def isShared {κ : Type} : Program.Event κ → Bool
  | .connect _ | .arrive _ _ | .peerClose _ | .accept | .unsupported | .endBatch => true
  | _ => false

def readable (x : Conn) : Bool := decide (x.buffer ≠ []) || x.peerClosed

variable {κ : Type} [DecidableEq κ]

/-- epoll_wait returns the descriptors that can be read, with EPOLLET only those on which
something has happened since it returned them last. The listening socket has EPOLLET in
every mode. -/
def isReady (mode : Mode) (s : State κ) : Fd κ → Bool
  | .listen => s.listenReady
  | .conn c => decide ((s.conns c).status = .registered) && readable (s.conns c) &&
      (decide (mode.trigger = .level) || (s.conns c).ready)

/-- After a reset nothing more arrives, and the descriptor can be read. -/
def fail (s : State κ) (c d : κ) : Conn :=
  if d = c then Conn.raise { s.conns c with peerClosed := true } else s.conns d

def drain (s : State κ) (c : κ) (rest : List UInt8) (d : κ) : Conn :=
  if d = c then { s.conns c with buffer := rest } else s.conns d

def close (s : State κ) (c d : κ) : Conn :=
  if d = c then { s.conns c with status := .closed, ready := false } else s.conns d

/-- One recv in epoll_level_trigger, epoll_et_once or the loop of epoll_et_loop. It closes
the descriptor after an error, in the loop only if it is not EAGAIN. On a connection that was
reset recv may still give bytes that are in its buffer, or fail. -/
inductive Step (mode : Mode) : State κ → Event κ → State κ → Prop
  | shared (s e t) (he : isShared e = true) (h : Program.Step s.toState e t) :
      Step mode s (.shared e) { s with toState := t }
  | reset (s) (c : κ) (hc : (s.conns c).status = .queued ∨ (s.conns c).status = .registered) :
      Step mode s (.reset c) { s with conns := fail s c, reset := Function.update s.reset c true }
  | wait (s) (fds : List (Fd κ)) (hw : s.server = .waiting) (hne : fds ≠ []) (hn : fds.Nodup)
      (hlen : fds.length ≤ maxEpollEvents) (hready : ∀ fd ∈ fds, isReady mode s fd = true) :
      Step mode s (.wait fds) { s with toState := { s.clear fds with server := .processing (fds.map fun fd => ⟨fd, true⟩) } }
  | enter (s) (c : κ) (events : List (EpollEvent κ)) (hm : mode.trigger = .edgeLoop)
      (hp : s.server = .processing (⟨.conn c, true⟩ :: events)) :
      Step mode s (.enter c) { s with server := .reading c events }
  | loopRecv (s) (c : κ) (events : List (EpollEvent κ)) (chunk rest : List UInt8) (hr : s.server = .reading c events)
      (hb : (s.conns c).buffer = chunk ++ rest) (hne : chunk ≠ []) (hlen : chunk.length ≤ maxBufferSize) :
      Step mode s (.recv c chunk) { s with conns := drain s c rest }
  | loopEnd (s) (c : κ) (events : List (EpollEvent κ)) (hr : s.server = .reading c events)
      (hb : (s.conns c).buffer = []) (ho : (s.conns c).peerClosed = true) :
      Step mode s (.endOfStream c) { s with conns := close s c, server := .processing events }
  | loopAgain (s) (c : κ) (events : List (EpollEvent κ)) (hm : mode.nonblock = true) (hr : s.server = .reading c events)
      (hb : (s.conns c).buffer = []) (ho : (s.conns c).peerClosed = false) :
      Step mode s (.again c) { s with server := .processing events }
  | loopError (s) (c : κ) (events : List (EpollEvent κ)) (hr : s.server = .reading c events) (hc : s.reset c = true) :
      Step mode s (.error c) { s with conns := close s c, server := .processing events }
  | onceRecv (s) (c : κ) (events : List (EpollEvent κ)) (chunk rest : List UInt8) (hm : mode.trigger ≠ .edgeLoop)
      (hp : s.server = .processing (⟨.conn c, true⟩ :: events)) (hb : (s.conns c).buffer = chunk ++ rest)
      (hne : chunk ≠ []) (hlen : chunk.length ≤ maxBufferSize) :
      Step mode s (.recv c chunk) { s with conns := drain s c rest, server := .processing events }
  | onceEnd (s) (c : κ) (events : List (EpollEvent κ)) (hm : mode.trigger ≠ .edgeLoop)
      (hp : s.server = .processing (⟨.conn c, true⟩ :: events)) (hb : (s.conns c).buffer = [])
      (ho : (s.conns c).peerClosed = true) :
      Step mode s (.endOfStream c) { s with conns := close s c, server := .processing events }
  | onceError (s) (c : κ) (events : List (EpollEvent κ)) (hm : mode.trigger ≠ .edgeLoop)
      (hp : s.server = .processing (⟨.conn c, true⟩ :: events)) (hc : s.reset c = true) :
      Step mode s (.error c) { s with conns := close s c, server := .processing events }
  | onceAgain (s) (c : κ) (events : List (EpollEvent κ)) (hm : mode.trigger ≠ .edgeLoop) (hn : mode.nonblock = true)
      (hp : s.server = .processing (⟨.conn c, true⟩ :: events)) (hb : (s.conns c).buffer = [])
      (ho : (s.conns c).peerClosed = false) :
      Step mode s (.again c) { s with conns := close s c, server := .processing events }

def State.init (κ : Type) : State κ := ⟨Program.State.init κ, fun _ => false⟩

def system (κ : Type) [DecidableEq κ] (mode : Mode) : System (State κ) (Event κ) where
  init s := s = State.init κ
  step := Step mode

/-- The server is blocked: in epoll_wait with nothing ready, or in a recv on a blocking
socket that has nothing to read. -/
inductive Asleep (mode : Mode) (s : State κ) : Prop
  | waiting (hw : s.server = .waiting) (h : ∀ fd, isReady mode s fd = false)
  | loop (c : κ) (events : List (EpollEvent κ)) (hr : s.server = .reading c events) (hm : mode.nonblock = false)
      (h : readable (s.conns c) = false)
  | once (c : κ) (events : List (EpollEvent κ)) (hp : s.server = .processing (⟨.conn c, true⟩ :: events))
      (ht : mode.trigger ≠ .edgeLoop) (hm : mode.nonblock = false) (h : readable (s.conns c) = false)

/-- Bytes of an accepted connection that were not read. -/
def Unread (s : State κ) (c : κ) : Prop := (s.conns c).status = .registered ∧ (s.conns c).buffer ≠ []

end StudyNotes.Epoll.Modes
