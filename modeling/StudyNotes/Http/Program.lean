import Mathlib.Data.Finmap
import StudyNotes.Words.BasicString
import StudyNotes.Mail.Program

namespace StudyNotes.Http.Program

open Words.BasicString Words.CLanguage Lists.Overwrite
open Mail.Program (ascii)

/-- The ways in which a call does not return. -/
inductive Fault
  | assertion
  | outOfRange
  | overflow
  | outOfBounds
  | nullPointer
deriving DecidableEq

/-- A size_t as an int. -/
def toInt (n : Nat) : Int := Int.bmod n (2 ^ 32)

/-- An int as a size_t. -/
def toSize (n : Int) : Nat := (n % 2 ^ 64).toNat

/-- An int as the number of characters; -1 becomes npos. -/
def count (n : Int) : Option Nat := if n = -1 then none else some (toSize n)

def sub (s : List UInt8) (pos : Nat) (count : Option Nat) : Except Fault (List UInt8) :=
  match substr s pos count with
  | some part => .ok part
  | none => .error .outOfRange

def slash : UInt8 := 47
def colon : UInt8 := 58

section uri

structure Method where
  getPost : List UInt8
  fulluri : List UInt8
  host : List UInt8
  port : Int
  uri : List UInt8

def addDigit (tmpPort : Int) (ch : UInt8) : Except Fault Int := do
  let tens ← checked Fault.overflow (tmpPort * 10)
  checked Fault.overflow (tens + (ch.toNat - 48))

/-- The loop over the characters of host and port, from the one of number i on. A char from 128 on
is negative, and so it is not between the digits either. -/
def portLoop : List UInt8 → Nat → Int → Int → Except Fault (Int × Int)
  | [], _, findPos, tmpPort => return (findPos, tmpPort)
  | ch :: rest, i, findPos, tmpPort =>
      if findPos > 0 then
        if ch < 48 ∨ ch > 57 then
          return (findPos, tmpPort)
        else do
          let tmpPort ← addDigit tmpPort ch
          if ch = colon then portLoop rest (i + 1) (toInt i) 0
          else portLoop rest (i + 1) findPos tmpPort
      else if ch = colon then portLoop rest (i + 1) (toInt i) 0
      else portLoop rest (i + 1) findPos tmpPort

/-- The end of ParseUri, from the text between the scheme and the path on. -/
def parseHostport (M : Method) (hostport : List UInt8) : Except Fault Method := do
  let (findPos, tmpPort) ← portLoop hostport 0 (-1) 0
  let M := if tmpPort > 0 then { M with port := tmpPort } else M
  let host ← sub hostport 0 (count findPos)
  return { M with host := host }

def parseUri (M : Method) (uri : List UInt8) : Except Fault (Bool × Method) :=
  match find uri (ascii "://") 0 with
  | none => return (false, M)
  | some ibegin =>
      match findChar uri slash (ibegin + 3) with
      | none => do
          let hostport ← sub uri (ibegin + 3) none
          return (true, ← parseHostport M hostport)
      | some nlen => do
          let M := { M with uri := ← sub uri nlen none }
          let hostport ← sub uri (ibegin + 3) (some (nlen - ibegin - 3))
          return (true, ← parseHostport M hostport)

/-- The members before ParseUri is called. -/
def Method.init (type uri : List UInt8) : Method := ⟨type, uri, [], 80, []⟩

def Method.new (type uri : List UInt8) : Except Fault Method := do
  let (parsed, M) ← parseUri (Method.init type uri) uri
  if parsed then return M else .error .assertion

end uri

section request

abbrev Headers := Finmap fun _ : List UInt8 => List UInt8

/-- A key that is there already keeps its value. -/
def insertHeader (headers : Headers) (name value : List UInt8) : Headers :=
  if name ∈ headers then headers else headers.insert name value

structure Request where
  method : Option Method
  postData : List UInt8
  headers : Headers

def defaultHeaders : List (String × String) :=
  [("User-Agent", "UvHttpClient/1.0"),
    ("Accept", "text/html,application/json,*/*"),
    ("Accept-Encoding", "gzip, deflate, br"),
    ("Accept-Language", "zh-CN,zh;q=0.9,en;q=0.8"),
    ("Content-Type", "text/plain;charset=UTF-8"),
    ("Connection", "Keep-Alive")]

/-- What the constructor adds where a default is missing. -/
def fallbackHeaders : List (String × String) :=
  [("User-Agent", "libuv_http_client"),
    ("Accept", "text/html,application/json,application/xhtml+xml,application/xml;q=0.9,*/*;q=0.8")]

def insertAll (headers : Headers) (entries : List (String × String)) : Headers :=
  entries.foldl (fun headers e => insertHeader headers (ascii e.1) (ascii e.2)) headers

def insertMissing (headers : Headers) (entries : List (String × String)) : Headers :=
  entries.foldl
    (fun headers e => if ascii e.1 ∈ headers then headers else insertHeader headers (ascii e.1) (ascii e.2)) headers

def Request.new (method : Option Method) : Request :=
  let headers := insertAll ∅ defaultHeaders
  let headers := insertMissing headers fallbackHeaders
  ⟨method, [], headers⟩

def contentLength : List UInt8 := ascii "Content-Length"

/-- std::to_string -/
def decimal (n : Nat) : List UInt8 := ascii (toString n)

def Request.setPostData (R : Request) (postStr : List UInt8) : Bool × Request :=
  let R := { R with postData := postStr }
  (true, { R with headers := insertHeader R.headers contentLength (decimal postStr.length) })

/-- An order in which the map may be gone through. -/
structure Order (headers : Headers) where
  walk : AList fun _ : List UInt8 => List UInt8
  walk_toFinmap : walk.toFinmap = headers

def line (name value : List UInt8) : List UInt8 := name ++ ascii ": " ++ value ++ ascii "\r\n"

def Request.toString (R : Request) (order : Order R.headers) : Except Fault (List UInt8) :=
  match R.method with
  | none => .error .nullPointer
  | some M =>
      let reqHeader := M.getPost
      let reqHeader := reqHeader ++ (ascii " " ++ M.uri ++ ascii " HTTP/1.1\r\n")
      let reqHeader := reqHeader ++ (ascii "Host: " ++ M.host ++ ascii "\r\n")
      let reqHeader := reqHeader ++ order.walk.entries.flatMap fun it => line it.1 it.2
      let reqHeader := reqHeader ++ ascii "\r\n"
      .ok (reqHeader ++ R.postData)

end request

section call

structure HttpRequestCall where
  messageToSend : Option (List UInt8)

/-- The bytes of a new block are arbitrary. No block is larger than PTRDIFF_MAX. -/
def malloc (fresh : Nat → UInt8) (n : Nat) : Option (List UInt8) :=
  if n ≤ 2 ^ 63 - 1 then some ((List.range n).map fresh) else none

def strcpy (dest : Option (List UInt8)) (src : List UInt8) : Except Fault (List UInt8) :=
  match dest with
  | none => .error .nullPointer
  | some block =>
      if (cStr src).length < block.length then .ok (overwrite block 0 (cStr src ++ [0]))
      else .error .outOfBounds

/-- The host and the port as uv_getaddrinfo gets them. -/
structure Query where
  node : List UInt8
  service : List UInt8

def strPortSize : Nat := 10

def resolveDnsAndSendRequest (hostName : List UInt8) (port : Int) : Except Fault Query :=
  let text := ascii (ToString.toString port)
  if text.length < strPortSize then .ok ⟨cStr hostName, text⟩ else .error .outOfBounds

def HttpRequestCall.send (client : HttpRequestCall) (fresh : Nat → UInt8) (R : Request) (order : Order R.headers) :
    Except Fault (HttpRequestCall × Option Query) :=
  match R.method with
  | none => return (client, none)
  | some M => do
      let tmp ← R.toString order
      let len := toInt (tmp.length + 1)
      let message ← strcpy (malloc fresh (toSize len)) tmp
      let client := { client with messageToSend := some message }
      let query ← resolveDnsAndSendRequest M.host M.port
      return (client, some query)

/-- The length is an unsigned int. -/
def uvBufInit (base : List UInt8) (len : Nat) : List UInt8 := base.take (len % 2 ^ 32)

/-- The bytes that on_connect hands to uv_write, if it gets so far. -/
def onConnect (client : HttpRequestCall) (status : Int) : Except Fault (Option (List UInt8)) :=
  if status = -1 then
    return none
  else
    match client.messageToSend with
    | none => .error .nullPointer
    | some message =>
        if 0 ∈ message then return some (uvBufInit message (cStr message).length) else .error .outOfBounds

end call

end StudyNotes.Http.Program
