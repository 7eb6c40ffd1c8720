import StudyNotes.Heap.Program
import StudyNotes.Systems.Transition
import Mathlib.Logic.Function.Basic

namespace StudyNotes.ThreadEcho.Program

open Heap.Program Systems.Transition

abbrev Fd := Nat

/-- How far a connection has come. The main thread handles it up to the call of
pthread_create, and then the thread that was created. The result of that call is not
looked at, so a connection without a thread is abandoned. -/
inductive Stage
  | unseen
  | accepted (conn : Fd)
  | allocated (p : Addr)
  | abandoned (p : Addr)
  | started (arg : Addr)
  | loaded (arg : Addr) (conn : Fd)
  | reading (conn : Fd)
  | printing (conn : Fd) (recvbuf : List UInt8)
  | writing (conn : Fd) (recvbuf : List UInt8)
  | closing (conn : Fd)
  | exited
deriving DecidableEq

/-- A connection in the kernel: the bytes that were not read, whether the peer has ended
its stream or has reset the connection, and the bytes that were written to it. -/
structure Conn where
  buffer : List UInt8
  peerClosed : Bool
  reset : Bool
  echoed : List UInt8

/-- Connections are numbered in the order in which they are accepted. The main thread is
in accept, or handles the connection with the number. -/
structure State where
  mem : Mem Fd
  fds : Fd → Option Nat
  conns : Nat → Conn
  stage : Nat → Stage
  main : Option Nat
  accepted : Nat
  down : Bool

def sizeofInt : Nat := 4

def sizeofRecvbuf : Nat := 1024

/-- The buffer is zero before read, so fputs finds an end in it unless read has filled all
of it with other bytes. -/
def Overread (recvbuf : List UInt8) : Prop := recvbuf.length = sizeofRecvbuf ∧ 0 ∉ recvbuf

instance (recvbuf : List UInt8) : Decidable (Overread recvbuf) := inferInstanceAs (Decidable (_ ∧ _))

inductive Event
  | arrive (k : Nat) (bytes : List UInt8)
  | peerClose (k : Nat)
  | reset (k : Nat)
  | accept (fd : Fd)
  | acceptFailed
  | allocate
  | create
  | createFailed
  | load (t : Nat)
  | release (t : Nat)
  | read (t : Nat) (recvbuf : List UInt8)
  | readZero (t : Nat)
  | readFailed (t : Nat)
  | print (t : Nat)
  | write (t : Nat)
  | writeFailed (t : Nat)
  | brokenPipe (t : Nat)
  | close (t : Nat)
deriving DecidableEq

def State.setStage (s : State) (t : Nat) (st : Stage) : State := { s with stage := Function.update s.stage t st }

def State.setConn (s : State) (k : Nat) (c : Conn) : State := { s with conns := Function.update s.conns k c }

section Fields

variable (s : State) (k t : Nat) (st : Stage) (c : Conn)

@[simp, grind =]
theorem State.setStage_stage : (s.setStage t st).stage k = if k = t then st else s.stage k := Function.update_apply ..

@[simp, grind =]
theorem State.setStage_conns : (s.setStage t st).conns = s.conns := rfl

@[simp, grind =]
theorem State.setStage_main : (s.setStage t st).main = s.main := rfl

@[simp, grind =]
theorem State.setStage_accepted : (s.setStage t st).accepted = s.accepted := rfl

@[simp, grind =]
theorem State.setStage_down : (s.setStage t st).down = s.down := rfl

@[simp, grind =]
theorem State.setConn_conns : (s.setConn t c).conns k = if k = t then c else s.conns k := Function.update_apply ..

@[simp, grind =]
theorem State.setConn_stage : (s.setConn t c).stage = s.stage := rfl

@[simp, grind =]
theorem State.setConn_down : (s.setConn t c).down = s.down := rfl

end Fields

variable (A : Allocator Fd)

/-- What the peers do, and the steps of the main thread and of the others. Reading blocks
where there is nothing to read. Where a connection was reset, a write fails, which the
program does not look at, or ends the process by a signal. -/
inductive Step : State → Event → State → Prop
  | arrive (s) (k) (bytes) (ho : (s.conns k).peerClosed = false) (hr : (s.conns k).reset = false) :
      Step s (.arrive k bytes) (s.setConn k { s.conns k with buffer := (s.conns k).buffer ++ bytes })
  | peerClose (s) (k) : Step s (.peerClose k) (s.setConn k { s.conns k with peerClosed := true })
  | reset (s) (k) : Step s (.reset k) (s.setConn k { s.conns k with reset := true })
  | accept (s) (fd) (hd : s.down = false) (hm : s.main = none) (hfd : s.fds fd = none) :
      Step s (.accept fd) { s.setStage s.accepted (.accepted fd) with
        fds := Function.update s.fds fd (some s.accepted)
        main := some s.accepted
        accepted := s.accepted + 1 }
  | acceptFailed (s) (hd : s.down = false) (hm : s.main = none) : Step s .acceptFailed { s with down := true }
  | allocate (s) (t) (conn) (p) (m) (hd : s.down = false) (hm : s.main = some t) (hst : s.stage t = .accepted conn)
      (h : malloc A sizeofInt (fun _ => conn) s.mem = .ok (p, m)) :
      Step s .allocate { s.setStage t (.allocated p) with mem := m }
  | create (s) (t) (p) (hd : s.down = false) (hm : s.main = some t) (hst : s.stage t = .allocated p) :
      Step s .create { s.setStage t (.started p) with main := none }
  | createFailed (s) (t) (p) (hd : s.down = false) (hm : s.main = some t) (hst : s.stage t = .allocated p) :
      Step s .createFailed { s.setStage t (.abandoned p) with main := none }
  | load (s) (t) (arg) (conn) (m) (hd : s.down = false) (hst : s.stage t = .started arg)
      (h : Heap.Program.load arg s.mem = .ok (conn, m)) :
      Step s (.load t) { s.setStage t (.loaded arg conn) with mem := m }
  | release (s) (t) (arg) (conn) (m) (hd : s.down = false) (hst : s.stage t = .loaded arg conn)
      (h : free arg s.mem = .ok ((), m)) :
      Step s (.release t) { s.setStage t (.reading conn) with mem := m }
  | read (s) (t) (conn) (k) (recvbuf) (rest) (hd : s.down = false) (hst : s.stage t = .reading conn)
      (hfd : s.fds conn = some k) (hb : (s.conns k).buffer = recvbuf ++ rest) (hne : recvbuf ≠ [])
      (hlen : recvbuf.length ≤ sizeofRecvbuf) :
      Step s (.read t recvbuf) ((s.setStage t (.printing conn recvbuf)).setConn k { s.conns k with buffer := rest })
  | readZero (s) (t) (conn) (k) (hd : s.down = false) (hst : s.stage t = .reading conn) (hfd : s.fds conn = some k)
      (hb : (s.conns k).buffer = []) (ho : (s.conns k).peerClosed = true) :
      Step s (.readZero t) (s.setStage t (.closing conn))
  | readFailed (s) (t) (conn) (k) (hd : s.down = false) (hst : s.stage t = .reading conn) (hfd : s.fds conn = some k)
      (hb : (s.conns k).buffer = []) (hr : (s.conns k).reset = true) :
      Step s (.readFailed t) { s with down := true }
  | print (s) (t) (conn) (recvbuf) (hd : s.down = false) (hst : s.stage t = .printing conn recvbuf)
      (h : ¬Overread recvbuf) :
      Step s (.print t) (s.setStage t (.writing conn recvbuf))
  | write (s) (t) (conn) (recvbuf) (k) (hd : s.down = false) (hst : s.stage t = .writing conn recvbuf)
      (hfd : s.fds conn = some k) (hr : (s.conns k).reset = false) :
      Step s (.write t)
        ((s.setStage t (.reading conn)).setConn k { s.conns k with echoed := (s.conns k).echoed ++ recvbuf })
  | writeFailed (s) (t) (conn) (recvbuf) (k) (hd : s.down = false) (hst : s.stage t = .writing conn recvbuf)
      (hfd : s.fds conn = some k) (hr : (s.conns k).reset = true) :
      Step s (.writeFailed t) (s.setStage t (.reading conn))
  | brokenPipe (s) (t) (conn) (recvbuf) (k) (hd : s.down = false) (hst : s.stage t = .writing conn recvbuf)
      (hfd : s.fds conn = some k) (hr : (s.conns k).reset = true) :
      Step s (.brokenPipe t) { s with down := true }
  | close (s) (t) (conn) (hd : s.down = false) (hst : s.stage t = .closing conn) :
      Step s (.close t) { s.setStage t .exited with fds := Function.update s.fds conn none }

inductive Crash
  | dangling
  | badDescriptor
  | overread
deriving DecidableEq

/-- A thread is about to do what the program must not do: use a block that is not there,
use a descriptor that is not open, or print beyond the buffer. -/
inductive Faulty (s : State) : Crash → Prop
  | load (t) (arg) (e) (hst : s.stage t = .started arg) (h : Heap.Program.load arg s.mem = .error e) :
      Faulty s .dangling
  | release (t) (arg) (conn) (e) (hst : s.stage t = .loaded arg conn) (h : free arg s.mem = .error e) :
      Faulty s .dangling
  | read (t) (conn) (hst : s.stage t = .reading conn) (hfd : s.fds conn = none) : Faulty s .badDescriptor
  | write (t) (conn) (recvbuf) (hst : s.stage t = .writing conn recvbuf) (hfd : s.fds conn = none) :
      Faulty s .badDescriptor
  | close (t) (conn) (hst : s.stage t = .closing conn) (hfd : s.fds conn = none) : Faulty s .badDescriptor
  | print (t) (conn) (recvbuf) (hst : s.stage t = .printing conn recvbuf) (h : Overread recvbuf) :
      Faulty s .overread

def State.init : State where
  mem := emptyMem
  fds _ := none
  conns _ := ⟨[], false, false, []⟩
  stage _ := .unseen
  main := none
  accepted := 0
  down := false

def system : System State Event where
  init s := s = State.init
  step := Step A

end StudyNotes.ThreadEcho.Program
