import StudyNotes.Systems.Transition
import StudyNotes.Lists.Overwrite
import Mathlib.Logic.Function.Basic
import Mathlib.Algebra.Group.Int.Defs
import Mathlib.Algebra.GroupWithZero.Nat

namespace StudyNotes.Echo.Program

open Systems.Transition Lists.Overwrite

/-- A message in the queue: its type and the bytes that were sent. -/
structure Message where
  mtype : Int
  mtext : List UInt8

def msgMaxlen : Nat := 8192

/-- The process ids of the clients, as ints. -/
structure Pids (ι : Type) where
  pid : ι → Int
  two_le (i : ι) : 2 ≤ pid i
  lt (i : ι) : pid i < 2 ^ 31
  injective : Function.Injective pid

/-- The four bytes of an int in memory. -/
def putInt (p : Int) : List UInt8 :=
  let n := (p % 2 ^ 32).toNat
  [UInt8.ofNat n, UInt8.ofNat (n / 2 ^ 8), UInt8.ofNat (n / 2 ^ 16), UInt8.ofNat (n / 2 ^ 24)]

def getInt (mtext : List UInt8) : Int :=
  let byte (k : Nat) : Nat := (mtext.getD k 0).toNat
  let n : Nat := byte 0 + 2 ^ 8 * byte 1 + 2 ^ 16 * byte 2 + 2 ^ 24 * byte 3
  if n < 2 ^ 31 then (n : Int) else (n : Int) - 2 ^ 32

/-- The bytes up to the end of the line, at most the given number, and the bytes after them. -/
def line : Nat → List UInt8 → List UInt8 × List UInt8
  | 0, stdin => ([], stdin)
  | _ + 1, [] => ([], [])
  | n + 1, b :: stdin => if b = 10 then ([b], stdin) else (b :: (line n stdin).1, (line n stdin).2)

/-- The bytes that fgets stores and the input left, none at the end of the input. -/
def fgets (size : Nat) (stdin : List UInt8) : Option (List UInt8 × List UInt8) :=
  if stdin = [] then none else some ((line (size - 1) stdin).1 ++ [0], (line (size - 1) stdin).2)

def strlen (bytes : List UInt8) : Nat := (bytes.takeWhile (· != 0)).length

/-- A client at fgets, in msgsnd, in msgrcv, and ended. -/
inductive ClientPoint
  | reading
  | sending
  | waiting
  | exited

structure Client where
  point : ClientPoint
  mtype : Int
  mtext : List UInt8
  stdin : List UInt8

/-- The server in msgrcv, in msgsnd with the size of the message, and ended. -/
inductive ServerPoint
  | receiving
  | replying (n : Nat)
  | exited

structure Server where
  point : ServerPoint
  mtype : Int
  mtext : List UInt8

structure State (ι : Type) where
  queue : List Message
  clients : ι → Client
  server : Server

def Client.init (pid : Int) (stdin : List UInt8) : Client where
  point := .reading
  mtype := 0
  mtext := overwrite (List.replicate msgMaxlen 0) 0 (putInt pid)
  stdin := stdin

def Client.fgets (x : Client) : Client :=
  match Program.fgets (msgMaxlen - 4) x.stdin with
  | none => { x with point := .exited }
  | some (bytes, stdin) => { point := .sending, mtype := 1, mtext := overwrite x.mtext 4 bytes, stdin := stdin }

def Client.request (x : Client) : Message := ⟨x.mtype, x.mtext.take (4 + strlen (x.mtext.drop 4))⟩

def Client.sent (x : Client) : Client :=
  { x with point := .waiting, mtext := overwrite x.mtext 4 (List.replicate (msgMaxlen - 4) 0) }

def Client.receive (x : Client) (m : Message) : Client :=
  { x with point := .reading, mtype := m.mtype, mtext := overwrite x.mtext 0 m.mtext }

def Server.init : Server := ⟨.receiving, 0, List.replicate msgMaxlen 0⟩

def Server.receive (x : Server) (m : Message) : Server where
  point := .replying m.mtext.length
  mtype := getInt (overwrite x.mtext 0 m.mtext)
  mtext := overwrite x.mtext 0 m.mtext

def Server.reply (x : Server) (n : Nat) : Message := ⟨x.mtype, x.mtext.take n⟩

def Server.replied (x : Server) : Server :=
  { x with point := .receiving, mtext := overwrite x.mtext 0 (List.replicate msgMaxlen 0) }

def hasType (t : Int) (m : Message) : Bool := m.mtype == t

/-- The message that msgrcv takes for a positive type. -/
def oldest (t : Int) (queue : List Message) : Option Message := queue.find? (hasType t)

def remove (t : Int) (queue : List Message) : List Message := queue.eraseP (hasType t)

def bytes (queue : List Message) : Nat := (queue.map fun m => m.mtext.length).sum

def Fits (capacity : Nat) (queue : List Message) (m : Message) : Prop := bytes queue + m.mtext.length ≤ capacity

inductive Event (ι : Type)
  | fgets (i : ι)
  | clientSend (i : ι) (m : Message)
  | clientReceive (i : ι) (m : Message)
  | clientFail (i : ι)
  | serverReceive
  | serverSend
  | serverFail

variable {ι : Type} [DecidableEq ι]

def State.init (pids : Pids ι) (stdin : ι → List UInt8) : State ι where
  queue := []
  clients i := Client.init (pids.pid i) (stdin i)
  server := .init

/-- One step of a client or of the server. A call that does not fit or finds no
message waits, and a reply longer than the client asks for makes msgrcv fail. -/
inductive Step (pids : Pids ι) (capacity : Nat) : State ι → Event ι → State ι → Prop
  | fgets (s) (i : ι) (hp : (s.clients i).point = .reading) :
      Step pids capacity s (.fgets i) { s with clients := Function.update s.clients i (s.clients i).fgets }
  | clientSend (s) (i : ι) (hp : (s.clients i).point = .sending)
      (hfit : Fits capacity s.queue (s.clients i).request) :
      Step pids capacity s (.clientSend i (s.clients i).request)
        { s with
          queue := s.queue ++ [(s.clients i).request]
          clients := Function.update s.clients i (s.clients i).sent }
  | clientReceive (s) (i : ι) (m : Message) (hp : (s.clients i).point = .waiting)
      (hm : oldest (pids.pid i) s.queue = some m) (hlen : m.mtext.length ≤ msgMaxlen - 4) :
      Step pids capacity s (.clientReceive i m)
        { s with
          queue := remove (pids.pid i) s.queue
          clients := Function.update s.clients i ((s.clients i).receive m) }
  | clientTooBig (s) (i : ι) (m : Message) (hp : (s.clients i).point = .waiting)
      (hm : oldest (pids.pid i) s.queue = some m) (hlen : msgMaxlen - 4 < m.mtext.length) :
      Step pids capacity s (.clientFail i)
        { s with clients := Function.update s.clients i { s.clients i with point := .exited } }
  | serverReceive (s) (m : Message) (hp : s.server.point = .receiving) (hm : oldest 1 s.queue = some m)
      (hlen : m.mtext.length ≤ msgMaxlen) :
      Step pids capacity s .serverReceive { s with queue := remove 1 s.queue, server := s.server.receive m }
  | serverTooBig (s) (m : Message) (hp : s.server.point = .receiving) (hm : oldest 1 s.queue = some m)
      (hlen : msgMaxlen < m.mtext.length) :
      Step pids capacity s .serverFail { s with server := { s.server with point := .exited } }
  | serverSend (s) (n : Nat) (hp : s.server.point = .replying n) (hpos : 0 < s.server.mtype)
      (hfit : Fits capacity s.queue (s.server.reply n)) :
      Step pids capacity s .serverSend { s with queue := s.queue ++ [s.server.reply n], server := s.server.replied }
  | serverInvalid (s) (n : Nat) (hp : s.server.point = .replying n) (hneg : s.server.mtype ≤ 0) :
      Step pids capacity s .serverFail { s with server := { s.server with point := .exited } }

def system (pids : Pids ι) (capacity : Nat) (stdin : ι → List UInt8) : System (State ι) (Event ι) where
  init s := s = State.init pids stdin
  step := Step pids capacity

end StudyNotes.Echo.Program
