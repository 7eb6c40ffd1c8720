import StudyNotes.Heap.Variants
import StudyNotes.Http.Program
import StudyNotes.Systems.Transition

namespace StudyNotes.Http.Callbacks

open Heap.Program Heap.Variants Systems.Transition
open Words.CLanguage (cStr)
open Http.Program (strPortSize)
open Mail.Program (ascii)

/-- The fields of an HttpRequestCall, with the statuses that on_message_complete has
been called with. -/
structure Call where
  chunkSize : Int
  responseBuffer : List UInt8
  parser : Addr
  settings : Addr
  handleToClose : Addr
  messageToSend : Addr
  completed : List Nat

/-- What is kept in memory. A request points to the HttpRequestCall it is made for and
to its handle, and so does a parser, once it is used. The callbacks in the settings never change. -/
inductive Block
  | call (c : Call)
  | parser (data : Addr)
  | settings
  | resolver (data : Addr)
  | addrinfo
  | text (bytes : List UInt8)
  | tcp (data : Addr) (closing : Bool)
  | connectReq (data handle : Addr)
  | writeReq (data handle base : Addr)

abbrev CallM := HeapM Block

/-- What the loop has been asked to do and will make a callback for. -/
inductive Job
  | resolve (resolver : Addr)
  | connect (req : Addr)
  | write (req : Addr)
  | read (handle : Addr)
  | close (handle : Addr) (onClose : Bool)
deriving DecidableEq

inductive Command
  | start (job : Job)
  | close (handle : Addr) (onClose : Bool)

/-- The sizes of the objects, and of the structures of http_parser, of libuv and of addrinfo. -/
def callSize : Nat := 80
def parserSize : Nat := 32
def settingsSize : Nat := 80
def getaddrinfoSize : Nat := 160
def tcpSize : Nat := 248
def connectSize : Nat := 96
def writeReqSize : Nat := 208
def addrinfoSize : Nat := 48

section Access

def Block.asCall : Block → Option Call
  | .call c => some c
  | _ => none

def Block.asParser : Block → Option Addr
  | .parser data => some data
  | _ => none

def Block.asSettings : Block → Option Unit
  | .settings => some ()
  | _ => none

def Block.asResolver : Block → Option Addr
  | .resolver data => some data
  | _ => none

def Block.asAddrinfo : Block → Option Unit
  | .addrinfo => some ()
  | _ => none

def Block.asText : Block → Option (List UInt8)
  | .text bytes => some bytes
  | _ => none

def Block.asTcp : Block → Option (Addr × Bool)
  | .tcp data closing => some (data, closing)
  | _ => none

def Block.asConnectReq : Block → Option (Addr × Addr)
  | .connectReq data handle => some (data, handle)
  | _ => none

def Block.asWriteReq : Block → Option (Addr × Addr × Addr)
  | .writeReq data handle base => some (data, handle, base)
  | _ => none

def loadCall : Addr → CallM Call := loadAs Block.asCall

def loadParser : Addr → CallM Addr := loadAs Block.asParser

def loadSettings : Addr → CallM Unit := loadAs Block.asSettings

def loadResolver : Addr → CallM Addr := loadAs Block.asResolver

def loadAddrinfo : Addr → CallM Unit := loadAs Block.asAddrinfo

def loadText : Addr → CallM (List UInt8) := loadAs Block.asText

def loadTcp : Addr → CallM (Addr × Bool) := loadAs Block.asTcp

def loadConnectReq : Addr → CallM (Addr × Addr) := loadAs Block.asConnectReq

def loadWriteReq : Addr → CallM (Addr × Addr × Addr) := loadAs Block.asWriteReq

/-- strlen and the s conversion of printf read up to a zero. -/
def readString (a : Addr) : CallM (List UInt8) := do
  let bytes ← loadText a
  if 0 ∈ bytes then return cStr bytes else fail .outOfBounds

/-- A handle must not be closed twice. -/
def uvClose (handle : Addr) (onClose : Bool) : CallM (List Command) := do
  let (data, closing) ← loadTcp handle
  assert (closing = false)
  store handle (.tcp data true)
  return [.close handle onClose]

/-- A request that the loop accepts; otherwise there is no callback, and nobody looks
at the return value. -/
def startIf (started : Bool) (job : Job) : List Command := if started then [.start job] else []

end Access

section Functions

variable (A : Allocator Block)

/-- An object that the constructor has made, with the two blocks that it allocates. -/
def Call.new (chunkSize : Int) (parser settings : Addr) : Call := ⟨chunkSize, [], parser, settings, 0, 0, []⟩

def httpRequestCall (chunkSize : Int) : CallM Addr := do
  let this ← malloc A callSize (fun _ => .call (Call.new chunkSize 0 0))
  let parser ← malloc A parserSize (fun _ => .parser 0)
  let settings ← malloc A settingsSize (fun _ => .settings)
  store this (.call (Call.new chunkSize parser settings))
  return this

/-- The sprintf of a port writes its text and a zero. -/
def printPort (port : Int) : CallM Unit :=
  if (ascii (ToString.toString port)).length < strPortSize then return () else fail .outOfBounds

def resolveDnsAndSendRequest (port : Int) (requestData : Addr) (started : Bool) : CallM (List Command) := do
  let resolver ← malloc A getaddrinfoSize (fun _ => .resolver requestData)
  printPort port
  return startIf started (.resolve resolver)

/-- The argument is the port of the request and its text, or none if it has no method. -/
def send (this : Addr) (request : Option (Int × List UInt8)) (started : Bool) : CallM (List Command) :=
  match request with
  | none => return []
  | some (port, tmp) => do
      let message ← malloc A (tmp.length + 1) (fun g =>
        .text (cStr tmp ++ 0 :: List.replicate (tmp.length - (cStr tmp).length) g))
      let c ← loadCall this
      store this (.call { c with messageToSend := message })
      resolveDnsAndSendRequest A port this started

def sendRequestToIp4 (requestData : Addr) (started : Bool) : CallM (List Command) := do
  let client ← malloc A tcpSize (fun _ => .tcp 0 false)
  let connectReq ← malloc A connectSize (fun _ => .connectReq requestData client)
  return startIf started (.connect connectReq)

def onDnsResolved (resolver : Addr) (status : Int) (res : Addr) (started : Bool) : CallM (List Command) := do
  if status < 0 then return []
  else
    loadAddrinfo res
    let data ← loadResolver resolver
    let commands ← sendRequestToIp4 A data started
    free resolver
    return commands

def onConnect (connection : Addr) (status : Int) (started : Bool) : CallM (List Command) := do
  let (client, tcp) ← loadConnectReq connection
  if status = -1 then return []
  else
    let c ← loadCall client
    let _ ← readString c.messageToSend
    let wr ← malloc A writeReqSize (fun _ => .writeReq client tcp c.messageToSend)
    return startIf started (.write wr)

def afterWrite (req : Addr) (status : Int) (reading : Bool) : CallM (List Command) := do
  let (data, handle, base) ← loadWriteReq req
  free base
  let (_, closing) ← loadTcp handle
  store handle (.tcp data closing)
  if status = 0 then return startIf reading (.read handle)
  else if closing = false then uvClose handle true
  else return []

/-- The size of the buffer that alloc_buffer gets. -/
def bufferSize (c : Call) (suggestedSize : Nat) : Nat :=
  if c.chunkSize > 0 then c.chunkSize.toNat else suggestedSize

def allocBuffer (handle : Addr) (suggestedSize : Nat) : CallM (Addr × Nat) := do
  let (client, _) ← loadTcp handle
  let c ← loadCall client
  let base ← malloc A (bufferSize c suggestedSize) (fun g => .text (List.replicate (bufferSize c suggestedSize) g))
  return (base, bufferSize c suggestedSize)

/-- A callback of the parser that does something. -/
inductive Parsed
  | body (p : List UInt8)
  | messageComplete (statusCode : Nat)
deriving DecidableEq

def onBodyCb (parser : Addr) (p : List UInt8) : CallM (List Command) := do
  let client ← loadParser parser
  let c ← loadCall client
  store client (.call { c with responseBuffer := c.responseBuffer ++ p })
  return []

def onMessageCompleteCb (parser : Addr) (statusCode : Nat) : CallM (List Command) := do
  let client ← loadParser parser
  let c ← loadCall client
  if c.handleToClose ≠ 0 then
    let commands ← uvClose c.handleToClose false
    store client (.call { c with handleToClose := 0, completed := c.completed ++ [statusCode] })
    return commands
  else
    store client (.call { c with completed := c.completed ++ [statusCode] })
    return []

def parserCallback (parser : Addr) : Parsed → CallM (List Command)
  | .body p => onBodyCb parser p
  | .messageComplete statusCode => onMessageCompleteCb parser statusCode

/-- http_parser_execute makes the callbacks of the settings that it finds in the input. -/
def httpParserExecute (parser settings : Addr) (parsed : List Parsed) : CallM (List Command) := do
  loadSettings settings
  parsed.foldlM (fun commands p => do
    let more ← parserCallback parser p
    return commands ++ more) []

def freeIfSet (base : Addr) : CallM Unit := if base ≠ 0 then free base else pure ()

/-- The positive case, after the check of nread. -/
def receiveData (handle : Addr) (base : Addr) (parsed : List Parsed) : CallM (List Command) := do
  let (client, _) ← loadTcp handle
  let c ← loadCall client
  let _ ← loadParser c.parser
  store c.parser (.parser client)
  store client (.call { c with handleToClose := handle })
  let commands ← httpParserExecute c.parser c.settings parsed
  let _ ← readString base
  freeIfSet base
  return commands

def receiveResponse (handle : Addr) (nread : Int) (base : Addr) (parsed : List Parsed) : CallM (List Command) := do
  let _ ← loadTcp handle
  if nread < 0 then
    freeIfSet base
    uvClose handle true
  else if nread = 0 then
    freeIfSet base
    uvClose handle false
  else receiveData handle base parsed

def onClose (peer : Addr) : CallM (List Command) := do
  free peer
  return []

end Functions

/-- What the loop finds when a socket is ready: an error or the end, with or without
a buffer, nothing, or bytes in which the parser then finds something. -/
inductive Input
  | failed (nread : Int) (suggestedSize : Option Nat)
  | nothing (suggestedSize : Nat)
  | received (suggestedSize : Nat) (bytes : List UInt8) (parsed : List Parsed)

/-- The loop's part in a read: the buffer, and the bytes in it. -/
def readSocket (A : Allocator Block) (handle : Addr) : Input → CallM (List Command)
  | .failed nread none => receiveResponse handle nread 0 []
  | .failed nread (some suggestedSize) => do
      let (base, _) ← allocBuffer A handle suggestedSize
      receiveResponse handle nread base []
  | .nothing suggestedSize => do
      let (base, _) ← allocBuffer A handle suggestedSize
      receiveResponse handle 0 base []
  | .received suggestedSize bytes parsed => do
      let (base, size) ← allocBuffer A handle suggestedSize
      let fresh ← loadText base
      store base (.text (bytes.take size ++ fresh.drop (bytes.take size).length))
      receiveResponse handle (bytes.take size).length base parsed

/-- The events of one HttpRequestCall: a call of send, and the callbacks that follow
from it. -/
inductive Event
  | send (request : Option (Int × List UInt8)) (started : Bool)
  | resolved (resolver : Addr) (status : Int) (started : Bool)
  | connected (req : Addr) (status : Int) (started : Bool)
  | written (req : Addr) (status : Int) (reading : Bool)
  | readable (handle : Addr) (input : Input)
  | closed (handle : Addr) (onClose : Bool)

def Event.job : Event → Option Job
  | .send _ _ => none
  | .resolved resolver _ _ => some (.resolve resolver)
  | .connected req _ _ => some (.connect req)
  | .written req _ _ => some (.write req)
  | .readable handle _ => some (.read handle)
  | .closed handle onClose => some (.close handle onClose)

/-- The list of addresses that on_dns_resolved gets is allocated by the loop. -/
def Event.exec (A : Allocator Block) (this : Addr) : Event → CallM (List Command)
  | .send request started => Callbacks.send A this request started
  | .resolved resolver status started =>
      if status < 0 then onDnsResolved A resolver status 0 started
      else do
        let res ← malloc A addrinfoSize (fun _ => .addrinfo)
        onDnsResolved A resolver status res started
  | .connected req status started => onConnect A req status started
  | .written req status reading => afterWrite req status reading
  | .readable handle input => readSocket A handle input
  | .closed handle true => onClose handle
  | .closed _ false => return []

/-- The memory, and the jobs of the loop with the HttpRequestCall that each of them
goes back to. -/
structure World where
  mem : Mem Block
  jobs : Multiset (Job × Addr)

/-- A job is over when its callback is made, but a socket is read until it is closed. -/
def takeJob (jobs : Multiset (Job × Addr)) (this : Addr) : Option Job → Multiset (Job × Addr)
  | none | some (.read _) => jobs
  | some job => jobs.erase (job, this)

def addCommand (this : Addr) (jobs : Multiset (Job × Addr)) : Command → Multiset (Job × Addr)
  | .start job => (job, this) ::ₘ jobs
  | .close handle onClose => (.close handle onClose, this) ::ₘ jobs.erase (.read handle, this)

def settle (jobs : Multiset (Job × Addr)) (this : Addr) (e : Event) (commands : List Command) : Multiset (Job × Addr) :=
  commands.foldl (addCommand this) (takeJob jobs this e.job)

/-- What libuv and the kernel promise about an event. -/
def Input.Legal : Input → Prop
  | .failed nread suggestedSize => nread < 0 ∧ ∀ n, suggestedSize = some n → n ≤ maxRequest
  | .nothing suggestedSize => suggestedSize ≤ maxRequest
  | .received suggestedSize bytes _ => 0 < suggestedSize ∧ suggestedSize ≤ maxRequest ∧ bytes ≠ []

/-- Send is called once for an object, with a request whose length is an int. -/
def Enabled (objects : Finset Addr) (w : World) (this : Addr) : Event → Prop
  | .send request _ => this ∈ objects ∧ (∃ c, w.mem.cells.lookup this = some (.call c) ∧ c.messageToSend = 0) ∧
      ∀ port tmp, request = some (port, tmp) → tmp.length + 1 < 2 ^ 31
  | .readable handle input => (.read handle, this) ∈ w.jobs ∧ input.Legal
  | e => ∃ job, e.job = some job ∧ (job, this) ∈ w.jobs

inductive Step (A : Allocator Block) (objects : Finset Addr) : World → Addr × Event → World → Prop
  | mk (w) (this : Addr) (e : Event) (commands : List Command) (m : Mem Block) (h : Enabled objects w this e)
      (hr : e.exec A this w.mem = .ok (commands, m)) :
      Step A objects w (this, e) ⟨m, settle w.jobs this e commands⟩

/-- The objects that a program makes at first. -/
def makeCalls (A : Allocator Block) (chunkSizes : List Int) : CallM (List Addr) :=
  chunkSizes.foldlM (fun made chunkSize => do
    let this ← httpRequestCall A chunkSize
    return made ++ [this]) []

/-- The constructor has made the objects, with chunk sizes that are ints, and nothing else has been done. -/
def Start (A : Allocator Block) (objects : Finset Addr) (w : World) : Prop :=
  w.jobs = 0 ∧ ∃ (chunkSizes : List Int) (made : List Addr), (∀ n ∈ chunkSizes, n < 2 ^ 31) ∧
    makeCalls A chunkSizes emptyMem = .ok (made, w.mem) ∧ objects = made.toFinset

def system (A : Allocator Block) (objects : Finset Addr) : System World (Addr × Event) where
  init := Start A objects
  step := Step A objects

end StudyNotes.Http.Callbacks
