import StudyNotes.Systems.Transition
import Mathlib.Logic.Function.Basic

namespace StudyNotes.Epoll.Program

open Systems.Transition

inductive Fd (κ : Type)
  | listen
  | conn (c : κ)
deriving DecidableEq

/-- An entry of the array that epoll_wait fills. -/
structure EpollEvent (κ : Type) where
  fd : Fd κ
  epollin : Bool

/-- A connection before it arrives, in the backlog, in the epoll set, and after
the server has closed it. -/
inductive Status
  | absent
  | queued
  | registered
  | closed
deriving DecidableEq

/-- The kernel's side of a connection: the receive buffer, whether the peer has
closed, and the ready flag of the epoll set. -/
structure Conn where
  status : Status
  buffer : List UInt8
  peerClosed : Bool
  ready : Bool

/-- The server in epoll_wait, in process_recv with the events left, and in
epoll_et_loop with the events left after it. -/
inductive Server (κ : Type)
  | waiting
  | processing (events : List (EpollEvent κ))
  | reading (c : κ) (events : List (EpollEvent κ))

def Server.events {κ : Type} : Server κ → List (EpollEvent κ)
  | .waiting => []
  | .processing events | .reading _ events => events

structure State (κ : Type) where
  backlog : List κ
  listenReady : Bool
  conns : κ → Conn
  server : Server κ

def maxEventFdSize : Nat := 10

def maxBufferSize : Nat := 5

inductive Event (κ : Type)
  | connect (c : κ)
  | arrive (c : κ) (bytes : List UInt8)
  | peerClose (c : κ)
  | epollWait (fds : List (Fd κ))
  | accept
  | enterLoop
  | unsupported
  | recv (c : κ) (chunk : List UInt8)
  | leaveLoop
  | endBatch

variable {κ : Type} [DecidableEq κ]

def State.init (κ : Type) : State κ where
  backlog := []
  listenReady := false
  conns _ := ⟨.absent, [], false, false⟩
  server := .waiting

def State.isReady (s : State κ) : Fd κ → Bool
  | .listen => s.listenReady
  | .conn c => (s.conns c).ready

/-- A change on a connection raises the flag if its descriptor is in the epoll set. -/
def Conn.raise (x : Conn) : Conn := { x with ready := x.ready || x.status == .registered }

/-- Adding a descriptor with something to read raises the flag at once. -/
def Conn.register (x : Conn) : Conn :=
  { x with status := .registered, ready := !x.buffer.isEmpty || x.peerClosed }

def State.clear (s : State κ) (fds : List (Fd κ)) : State κ :=
  { s with
    listenReady := s.listenReady && !decide (.listen ∈ fds)
    conns := fun c => { s.conns c with ready := (s.conns c).ready && !decide (.conn c ∈ fds) } }

/-- One step of the kernel, of a peer or of the server. The server takes one event
after the other, with one accept for an event of the listening socket. -/
inductive Step : State κ → Event κ → State κ → Prop
  | connect (s) (c : κ) (hc : (s.conns c).status = .absent) :
      Step s (.connect c)
        { s with
          backlog := s.backlog ++ [c]
          listenReady := true
          conns := Function.update s.conns c { s.conns c with status := .queued } }
  | arrive (s) (c : κ) (bytes : List UInt8) (hne : bytes ≠ [])
      (hc : (s.conns c).status = .queued ∨ (s.conns c).status = .registered) (ho : (s.conns c).peerClosed = false) :
      Step s (.arrive c bytes)
        { s with
          conns := Function.update s.conns c
            (Conn.raise { s.conns c with buffer := (s.conns c).buffer ++ bytes }) }
  | peerClose (s) (c : κ) (hc : (s.conns c).status = .queued ∨ (s.conns c).status = .registered)
      (ho : (s.conns c).peerClosed = false) :
      Step s (.peerClose c)
        { s with conns := Function.update s.conns c (Conn.raise { s.conns c with peerClosed := true }) }
  | epollWait (s) (fds : List (Fd κ)) (hw : s.server = .waiting) (hne : fds ≠ []) (hn : fds.Nodup)
      (hlen : fds.length ≤ maxEventFdSize) (hready : ∀ fd ∈ fds, s.isReady fd = true) :
      Step s (.epollWait fds) { s.clear fds with server := .processing (fds.map fun fd => ⟨fd, true⟩) }
  | accept (s) (b : Bool) (events : List (EpollEvent κ)) (c : κ) (backlog : List κ)
      (hp : s.server = .processing (⟨.listen, b⟩ :: events)) (hb : s.backlog = c :: backlog) :
      Step s .accept
        { s with
          backlog := backlog
          conns := Function.update s.conns c (Conn.register (s.conns c))
          server := .processing events }
  | acceptFails (s) (b : Bool) (events : List (EpollEvent κ))
      (hp : s.server = .processing (⟨.listen, b⟩ :: events)) (hb : s.backlog = []) :
      Step s .accept { s with server := .processing events }
  | enterLoop (s) (c : κ) (events : List (EpollEvent κ))
      (hp : s.server = .processing (⟨.conn c, true⟩ :: events)) :
      Step s .enterLoop { s with server := .reading c events }
  | unsupported (s) (c : κ) (events : List (EpollEvent κ))
      (hp : s.server = .processing (⟨.conn c, false⟩ :: events)) :
      Step s .unsupported { s with server := .processing events }
  | recv (s) (c : κ) (events : List (EpollEvent κ)) (chunk rest : List UInt8) (hr : s.server = .reading c events)
      (hb : (s.conns c).buffer = chunk ++ rest) (hne : chunk ≠ []) (hlen : chunk.length ≤ maxBufferSize) :
      Step s (.recv c chunk) { s with conns := Function.update s.conns c { s.conns c with buffer := rest } }
  | endOfStream (s) (c : κ) (events : List (EpollEvent κ)) (hr : s.server = .reading c events)
      (hb : (s.conns c).buffer = []) (ho : (s.conns c).peerClosed = true) :
      Step s .leaveLoop
        { s with
          conns := Function.update s.conns c { s.conns c with status := .closed, ready := false }
          server := .processing events }
  | again (s) (c : κ) (events : List (EpollEvent κ)) (hr : s.server = .reading c events)
      (hb : (s.conns c).buffer = []) (ho : (s.conns c).peerClosed = false) :
      Step s .leaveLoop { s with server := .processing events }
  | endBatch (s) (hp : s.server = .processing []) : Step s .endBatch { s with server := .waiting }

/-- The text that %s prints for a chunk received into the buffer, which the loop
ends with a zero byte. -/
def printed (chunk : List UInt8) : List UInt8 := (chunk ++ [0]).takeWhile (· != 0)

def system (κ : Type) [DecidableEq κ] : System (State κ) (Event κ) where
  init s := s = State.init κ
  step := Step

/-- The server is blocked in epoll_wait and no ready flag is set. -/
def Blocked (s : State κ) : Prop := s.server = .waiting ∧ ∀ fd, s.isReady fd = false

end StudyNotes.Epoll.Program
