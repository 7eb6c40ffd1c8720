import StudyNotes.Lists.Overwrite
import StudyNotes.Words.CLanguage
import Mathlib.Algebra.Group.Int.Defs
import Mathlib.Algebra.Group.Nat.Defs

namespace StudyNotes.Mail.Program

open Lists.Overwrite Words.CLanguage

/-- The ways in which the program ends before main returns. -/
inductive Stop
  | exit (code : Int)
  | outOfBounds
  | overflow
  | diverged
deriving DecidableEq

def ascii (text : String) : List UInt8 := text.toList.map fun c => UInt8.ofNat c.toNat

section encoding

def base64tab : List UInt8 := ascii "ABCDEFGHIJKLMNOPQRSTUVWXYZabcdefghijklmnopqrstuvwxyz0123456789+/" ++ [0]

abbrev OutM := StateT (List UInt8) (Except Stop)

def byteAt (inp : List UInt8) (k : Nat) : OutM Nat := fun out =>
  match inp[k]? with
  | some b => .ok (b.toNat, out)
  | none => .error .outOfBounds

def tabAt (k : Nat) : OutM UInt8 := fun out =>
  match base64tab[k]? with
  | some b => .ok (b, out)
  | none => .error .outOfBounds

def putAt (k : Nat) (b : UInt8) : OutM Unit := fun out =>
  if k < out.length then .ok ((), out.set k b) else .error .outOfBounds

def eqSign : UInt8 := 61

def encodeTail (inp : List UInt8) (ipos ilen opos : Nat) : OutM Unit := do
  if ilen = 0 then
    putAt opos 0
  else
    putAt opos (← tabAt ((← byteAt inp ipos) >>> 2))
    if ilen = 1 then
      putAt (opos + 1) (← tabAt (((← byteAt inp ipos) &&& 0x03) <<< 4))
      putAt (opos + 2) eqSign
    else
      putAt (opos + 1) (← tabAt ((((← byteAt inp ipos) &&& 0x03) <<< 4) ||| ((← byteAt inp (ipos + 1)) >>> 4)))
      putAt (opos + 2) (← tabAt (((← byteAt inp (ipos + 1)) &&& 0x0F) <<< 2))
    putAt (opos + 3) eqSign
    putAt (opos + 4) 0

/-- The loop of base64_encode and what follows it, with the places of both pointers. -/
def encodeFrom (inp : List UInt8) : Nat → Nat → Nat → OutM Unit
  | ilen + 3, ipos, opos => do
      putAt opos (← tabAt ((← byteAt inp ipos) >>> 2))
      putAt (opos + 1) (← tabAt ((((← byteAt inp ipos) &&& 0x03) <<< 4) ||| ((← byteAt inp (ipos + 1)) >>> 4)))
      putAt (opos + 2) (← tabAt ((((← byteAt inp (ipos + 1)) &&& 0x0F) <<< 2) ||| ((← byteAt inp (ipos + 2)) >>> 6)))
      putAt (opos + 3) (← tabAt ((← byteAt inp (ipos + 2)) &&& 0x3F))
      encodeFrom inp ilen (ipos + 3) (opos + 4)
  | ilen, ipos, opos => encodeTail inp ipos ilen opos

def base64Encode (inp : List UInt8) (ilen : Nat) (out : List UInt8) (outlen : Int) : Except Stop (Int × List UInt8) := do
  let sum ← checked Stop.overflow (ilen + 2)
  let convlen ← checked Stop.overflow (sum.tdiv 3 * 4)
  if convlen ≥ outlen then
    return (-1, out)
  else
    let (_, out) ← (encodeFrom inp ilen 0 0).run out
    return (convlen, out)

end encoding

def inBufSize : Nat := 4096
def outBufSize : Nat := (inBufSize + 2) / 3 * 4 + 1
def bufsiz : Nat := 8192

def fromIp : String := "zhangsan@sina.com"
def toIp : String := "zhangsan@sina.com"
def subject : String := "TestEmail"
def user : String := fromIp
def passwd : String := "passwd"
def htmlFile : String := "test.html"
def docFile : String := "test.doc"

/-- What the calls of the system return: each write of a number of bytes and each read by its
number, and the files by their names. -/
structure Host where
  socket : Bool
  gethostbyname : Bool
  connect : Bool
  write : Nat → Nat → Int
  write_le (k n : Nat) : write k n ≤ n
  read : Nat → Option (List UInt8)
  file : String → Option (List UInt8)

/-- The bytes written to the socket, the numbers of writes and reads, and the rest of the
open file. -/
structure World where
  sent : List UInt8
  writes : Nat
  reads : Nat
  unread : List UInt8

abbrev MailM := StateT World (Except Stop)

def stop {α : Type} (e : Stop) : MailM α := fun _ => .error e

def write (H : Host) (bytes : List UInt8) : MailM Int := fun w =>
  .ok (H.write w.writes bytes.length,
    { w with sent := w.sent ++ bytes.take (H.write w.writes bytes.length).toNat, writes := w.writes + 1 })

def fopen (contents : List UInt8) : MailM Unit := fun w => .ok ((), { w with unread := contents })

def fread (n : Nat) : MailM (List UInt8) := fun w => .ok (w.unread.take n, { w with unread := w.unread.drop n })

/-- The loop of send_socket, on the bytes that are still to be written. -/
def sendRest (H : Host) : Nat → List UInt8 → MailM Unit
  | 0, rest => if rest = [] then return () else stop .diverged
  | rounds + 1, rest => do
      if rest = [] then
        return ()
      else
        let ret ← write H rest
        if ret ≤ 0 then
          stop (.exit (-1))
        else
          sendRest H rounds (rest.drop ret.toNat)

def strlen (buf : List UInt8) : Nat := (buf.takeWhile (· != 0)).length

def sendSocket (H : Host) (outBuf : List UInt8) (size : Int) : MailM Unit :=
  let len := if size = -1 then strlen outBuf else size.toNat
  if outBuf.length < len then stop .outOfBounds else sendRest H len (outBuf.take len)

/-- A read that fails makes read_socket write before its buffer. -/
def readSocket (H : Host) : MailM Unit := fun w =>
  match H.read w.reads with
  | some bytes => if bytes.length ≤ bufsiz then .ok ((), { w with reads := w.reads + 1 }) else .error .outOfBounds
  | none => .error .outOfBounds

def sendText (H : Host) (text : String) : MailM Unit := sendSocket H (ascii text ++ [0]) (-1)

def sendTexts (H : Host) : List String → MailM Unit
  | [] => return ()
  | text :: texts => do
      sendText H text
      sendTexts H texts

/-- The calls that send a name or a password in base64, with the buffer they use. -/
def sendEncoded (H : Host) (text : String) (outBuf : List UInt8) : MailM (List UInt8) := do
  let (_, outBuf) ← StateT.lift (base64Encode (ascii text ++ [0]) (ascii text).length outBuf outBufSize)
  sendSocket H outBuf (-1)
  sendText H "\r\n"
  readSocket H
  return outBuf

def login (H : Host) (outBuf : List UInt8) : MailM (List UInt8) := do
  readSocket H
  sendTexts H ["HELO ", fromIp, "\r\n"]
  readSocket H
  sendTexts H ["AUTH LOGIN\r\n"]
  readSocket H
  let outBuf ← sendEncoded H user outBuf
  sendEncoded H passwd outBuf

def mailHead (H : Host) : MailM Unit := do
  sendTexts H ["MAIL FROM <", fromIp, ">\r\n"]
  readSocket H
  sendTexts H ["RCPT TO <", toIp, ">\r\n"]
  readSocket H

/-- What is sent before the page. -/
def infoTexts : List String :=
  ["FROM:<", fromIp, ">\r\n", "TO:<", toIp, ">\r\n", "SUBJECT:", subject, "\r\n", "MIME-VERSION: 1.0\r\n",
    "CONTENT-TYPE: MULTIPART/MIXED; BOUNDARY=\"#BOUNDARY#\"\r\n\r\n",
    "--#BOUNDARY#\r\n", "CONTENT-TYPE: TEXT/HTML\r\n\r\n"]

/-- What is sent between the page and the document. -/
def docTexts : List String :=
  ["\r\n\r\n", "--#BOUNDARY#\r\n", "CONTENT-TYPE: APPLICATION/MSWORD; NAME=", docFile, "\r\n",
    "CONTENT-DISPOSITION: ATTACHMENT; FILENAME=", docFile, "\r\n", "CONTENT-TRANSFER-ENCODING:BASE64\r\n\r\n"]

/-- The loop that sends the page, none when fread fails; otherwise the buffer it leaves. -/
def htmlLoop (H : Host) (length : Nat) : Nat → Nat → List UInt8 → MailM (Option (List UInt8))
  | 0, count, inBuf => if count < length then stop .diverged else return some inBuf
  | rounds + 1, count, inBuf => do
      if count < length then
        let chunk ← fread inBufSize
        let inBuf := overwrite inBuf 0 chunk
        if chunk.length ≤ 0 then
          return none
        else
          sendSocket H inBuf chunk.length
          htmlLoop H length rounds (count + chunk.length) inBuf
      else
        return some inBuf

/-- The loop that sends the document, false when base64_encode fails. -/
def docLoop (H : Host) (length : Nat) : Nat → Nat → List UInt8 → List UInt8 → MailM Bool
  | 0, count, _, _ => if count < length then stop .diverged else return true
  | rounds + 1, count, inBuf, outBuf => do
      if count < length then
        let chunk ← fread inBufSize
        let inBuf := overwrite inBuf 0 chunk
        let (tmpRet, outBuf) ← StateT.lift (base64Encode inBuf chunk.length outBuf outBufSize)
        if tmpRet = -1 then
          return false
        else
          sendSocket H outBuf tmpRet
          docLoop H length rounds (count + chunk.length) inBuf outBuf
      else
        return true

def finish (H : Host) : MailM Int := do
  sendTexts H ["\r\n.\r\n"]
  readSocket H
  sendTexts H ["QUIT\r\n"]
  readSocket H
  return 0

def sendDoc (H : Host) (inBuf outBuf : List UInt8) : MailM Int := do
  sendTexts H docTexts
  match H.file docFile with
  | none => return -1
  | some doc =>
      fopen doc
      if ← docLoop H doc.length doc.length 0 inBuf outBuf then
        finish H
      else
        return -1

def sendMail (H : Host) (inBuf outBuf : List UInt8) : MailM Int := do
  sendTexts H ["DATA\r\n"]
  readSocket H
  sendTexts H infoTexts
  match H.file htmlFile with
  | none => return -1
  | some html =>
      fopen html
      match ← htmlLoop H html.length html.length 0 inBuf with
      | none => return -1
      | some inBuf => sendDoc H inBuf outBuf

def main (H : Host) : MailM Int := do
  let inBuf := List.replicate (inBufSize + 1) 0
  let outBuf := List.replicate (outBufSize + 1) 0
  if H.socket ∧ H.gethostbyname ∧ H.connect then
    let outBuf ← login H outBuf
    mailHead H
    sendMail H inBuf outBuf
  else
    return -1

end StudyNotes.Mail.Program
