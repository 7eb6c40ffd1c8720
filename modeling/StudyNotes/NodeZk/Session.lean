import StudyNotes.Codes.Hexadecimal

namespace StudyNotes.NodeZk.Session

open Codes

section Password

def passwordByteCount : Nat := 16

def fourBitsToHex (c : UInt8) : UInt8 := if c ≤ 9 then 48 + c else 55 + c

/-- A char is signed, so a byte from 128 on is below '9'. -/
def hexToFourBits (h : UInt8) : UInt8 := if h ≤ 57 ∨ 128 ≤ h then h - 48 else h - 55

def ucharToHex (c : UInt8) : List UInt8 := [fourBitsToHex ((c &&& 0xf0) >>> 4), fourBitsToHex (c &&& 0x0f)]

def hexToUchar (high low : UInt8) : UInt8 := hexToFourBits high <<< 4 ||| hexToFourBits low

/-- The type clientid_t of the library. -/
structure ClientId where
  clientId : Int64
  passwd : List UInt8
  length_passwd : passwd.length = passwordByteCount
deriving DecidableEq

def ClientId.zero : ClientId where
  clientId := 0
  passwd := List.replicate passwordByteCount 0
  length_passwd := List.length_replicate

def passwordToHexString (p : List UInt8) : List UInt8 := p.flatMap ucharToHex

/-- The loop stops without a result if it would read behind the text. -/
def hexPairs : Nat → List UInt8 → Option (List UInt8)
  | 0, _ => some []
  | n + 1, high :: low :: hex => (hexPairs n hex).map (hexToUchar high low :: ·)
  | _, _ => none

def hexStringToPassword (hex : List UInt8) : Option (List UInt8) := hexPairs passwordByteCount hex

/-- The digits that ucharToHex writes. -/
def isHexDigit (h : UInt8) : Bool := (48 ≤ h && h ≤ 57) || (65 ≤ h && h ≤ 70)

theorem forall_byte {P : UInt8 → Prop} (h : ∀ i : Fin 256, P (UInt8.ofFin i)) (c : UInt8) : P c := h c.toFin

theorem forall_fourBits {P : UInt8 → Prop} (h : ∀ i : Fin 16, P (UInt8.ofNat i)) (c : UInt8) (hc : c < 16) : P c := by
  have hi := h ⟨c.toNat, UInt8.lt_iff_toNat_lt.mp hc⟩
  rwa [UInt8.ofNat_toNat] at hi

theorem isHexDigit_fourBitsToHex : ∀ c : UInt8, c < 16 → isHexDigit (fourBitsToHex c) = true :=
  forall_fourBits (by decide)

theorem halves_lt : ∀ c : UInt8, (c &&& 0xf0) >>> 4 < 16 ∧ c &&& 0x0f < 16 := forall_byte (by decide +kernel)

theorem hexToUchar_ucharToHex : ∀ c : UInt8,
    hexToUchar (fourBitsToHex ((c &&& 0xf0) >>> 4)) (fourBitsToHex (c &&& 0x0f)) = c := forall_byte (by decide +kernel)

theorem fourBits_of_isHexDigit : ∀ h : UInt8, isHexDigit h = true →
    fourBitsToHex (hexToFourBits h) = h ∧ hexToFourBits h < 16 := forall_byte (by decide +kernel)

theorem halves_merge : ∀ a : UInt8, a < 16 → ∀ b : UInt8, b < 16 →
    ((a <<< 4 ||| b) &&& 0xf0) >>> 4 = a ∧ (a <<< 4 ||| b) &&& 0x0f = b :=
  forall_fourBits fun i => forall_fourBits (by revert i; decide +kernel)

theorem ucharToHex_hexToUchar {high low : UInt8} (hh : isHexDigit high = true) (hl : isHexDigit low = true) :
    ucharToHex (hexToUchar high low) = [high, low] := by
  obtain ⟨hhigh, hhlt⟩ := fourBits_of_isHexDigit high hh
  obtain ⟨hlow, hllt⟩ := fourBits_of_isHexDigit low hl
  obtain ⟨h₁, h₂⟩ := halves_merge _ hhlt _ hllt
  rw [ucharToHex, hexToUchar, h₁, h₂, hhigh, hlow]

theorem isHexDigit_of_mem_ucharToHex {c h : UInt8} (hh : h ∈ ucharToHex c) : isHexDigit h = true := by
  obtain ⟨hhigh, hlow⟩ := halves_lt c
  rw [ucharToHex, List.mem_pair] at hh
  rcases hh with rfl | rfl
  · exact isHexDigit_fourBitsToHex _ hhigh
  · exact isHexDigit_fourBitsToHex _ hlow

theorem isHexDigit_of_mem_passwordToHexString {p : List UInt8} {h : UInt8} (hh : h ∈ passwordToHexString p) :
    isHexDigit h = true := by
  obtain ⟨c, -, hc⟩ := List.mem_flatMap.mp hh
  exact isHexDigit_of_mem_ucharToHex hc

theorem length_passwordToHexString (p : List UInt8) : (passwordToHexString p).length = 2 * p.length := by
  induction p with
  | nil => rfl
  | cons c p ih =>
      rw [passwordToHexString, List.flatMap_cons, List.length_append]
      change 2 + (passwordToHexString p).length = _
      rw [ih, List.length_cons]
      omega

theorem hexPairs_passwordToHexString (p : List UInt8) : hexPairs p.length (passwordToHexString p) = some p := by
  induction p with
  | nil => rfl
  | cons c p ih =>
      change (hexPairs p.length (passwordToHexString p)).map (hexToUchar _ _ :: ·) = _
      rw [ih, Option.map_some, hexToUchar_ucharToHex]

/-- A text of the right length is read to its end. -/
theorem hexPairs_isSome {n : Nat} {hex : List UInt8} (h : hex.length = 2 * n) :
    ∃ p, hexPairs n hex = some p ∧ p.length = n := by
  induction n generalizing hex with
  | zero => exact ⟨[], rfl, rfl⟩
  | succ n ih =>
      match hex, h with
      | high :: low :: rest, h =>
          have hrest : rest.length = 2 * n := by
            simp only [List.length_cons] at h
            omega
          obtain ⟨p, hp, hlen⟩ := ih hrest
          exact ⟨hexToUchar high low :: p, by rw [hexPairs, hp, Option.map_some], by rw [List.length_cons, hlen]⟩
      | [high], h => simp at h; omega

/-- Texts of the digits that are written can be read back from the bytes. -/
theorem passwordToHexString_hexPairs {n : Nat} {hex p : List UInt8} (hlen : hex.length = 2 * n)
    (hdigits : ∀ h ∈ hex, isHexDigit h = true) (hp : hexPairs n hex = some p) : passwordToHexString p = hex := by
  induction n generalizing hex p with
  | zero =>
      rw [List.length_eq_zero_iff.mp hlen]
      cases hp
      rfl
  | succ n ih =>
      match hex, hlen with
      | high :: low :: rest, hlen =>
          have hrest : rest.length = 2 * n := by
            simp only [List.length_cons] at hlen
            omega
          rw [hexPairs, Option.map_eq_some_iff] at hp
          obtain ⟨q, hq, rfl⟩ := hp
          have hhigh : isHexDigit high = true := hdigits high List.mem_cons_self
          have hlow : isHexDigit low = true := hdigits low (List.mem_cons_of_mem _ List.mem_cons_self)
          have hq' : passwordToHexString q = rest :=
            ih hrest (fun h hh => hdigits h (List.mem_cons_of_mem _ (List.mem_cons_of_mem _ hh))) hq
          calc
            passwordToHexString (hexToUchar high low :: q) = ucharToHex (hexToUchar high low) ++ passwordToHexString q := rfl
            _ = high :: low :: rest := by rw [ucharToHex_hexToUchar hhigh hlow, hq']; rfl
      | [high], hlen => simp at hlen; omega

end Password

section Id

def idAsString (id : Int64) : List UInt8 := Hexadecimal.numeral id.toUInt64.toNat

def isSpace (ch : UInt8) : Bool := ch == 32 || (9 ≤ ch && ch ≤ 13)

/-- The digits of a number for the conversion llx, after a sign. -/
def scanDigits : List UInt8 → Option Nat
  | 48 :: x :: rest =>
      if x = 120 ∨ x = 88 then some (Hexadecimal.value 0 rest) else some (Hexadecimal.value 0 (48 :: x :: rest))
  | ch :: rest => (Hexadecimal.digitValue ch).map fun d => Hexadecimal.value d rest
  | [] => none

/-- A number that does not fit gives the largest value. -/
def toWord (negate : Bool) (n : Nat) : UInt64 :=
  if n < 2 ^ 64 then (if negate then -UInt64.ofNat n else UInt64.ofNat n) else UInt64.ofNat (2 ^ 64 - 1)

/-- What sscanf stores with llx, if it stores anything. -/
def sscanfHex (text : List UInt8) : Option UInt64 :=
  match text.dropWhile isSpace with
  | 43 :: rest => (scanDigits rest).map (toWord false)
  | 45 :: rest => (scanDigits rest).map (toWord true)
  | rest => (scanDigits rest).map (toWord false)

def stringToId (text : List UInt8) (id : Int64) : Int64 :=
  match sscanfHex text with
  | some v => v.toInt64
  | none => id

theorem digit_plain : ∀ d < 16, isSpace (Hexadecimal.digit d) = false ∧ Hexadecimal.digit d ≠ 43 ∧
    Hexadecimal.digit d ≠ 45 ∧ (Hexadecimal.digit d = 48 → d = 0) := by decide

theorem scanDigits_numeral (n : Nat) : scanDigits (Hexadecimal.numeral n) = some n := by
  obtain ⟨d, rest, hn, hd, hzero⟩ := Hexadecimal.numeral_cons n
  have hvalue : Hexadecimal.value 0 (Hexadecimal.numeral n) = n := Hexadecimal.value_numeral n
  rw [hn, Hexadecimal.value, Hexadecimal.digitValue_digit hd] at hvalue
  simp only [Nat.zero_mul, Nat.zero_add] at hvalue
  rw [hn, scanDigits.eq_def]
  split
  next x rest' heq =>
    -- A zero in front stands alone.
    cases hzero ((digit_plain d hd).2.2.2 (List.cons.inj heq).1)
    cases (List.cons.inj heq).2
  next ch rest' _ heq =>
    obtain ⟨rfl, rfl⟩ := List.cons.inj heq
    rw [Hexadecimal.digitValue_digit hd, Option.map_some, hvalue]
  next heq => cases heq

theorem sscanfHex_numeral (n : Nat) : sscanfHex (Hexadecimal.numeral n) = some (toWord false n) := by
  have hscan := scanDigits_numeral n
  obtain ⟨d, rest, hn, hd, -⟩ := Hexadecimal.numeral_cons n
  obtain ⟨hspace, hplus, hminus, -⟩ := digit_plain d hd
  rw [hn] at hscan ⊢
  rw [sscanfHex, List.dropWhile_cons_of_neg (by rw [hspace]; exact Bool.false_ne_true)]
  split
  next heq => exact absurd (List.cons.inj heq).1 hplus
  next heq => exact absurd (List.cons.inj heq).1 hminus
  next => rw [hscan, Option.map_some]

theorem stringToId_idAsString (id old : Int64) : stringToId (idAsString id) old = id := by
  have hlt : id.toUInt64.toNat < 2 ^ 64 := id.toUInt64.toNat_lt
  have hword : toWord false id.toUInt64.toNat = id.toUInt64 := by
    rw [toWord, if_pos hlt]
    exact UInt64.ofNat_toNat
  rw [stringToId, idAsString, sscanfHex_numeral, hword]
  rfl

end Id

section Init

/-- The fields of the argument of init. One that is undefined is none. -/
structure Options where
  connect : List UInt8
  timeout : Int32
  clientId : Option (List UInt8)
  clientPassword : Option (List UInt8)
deriving DecidableEq

inductive Value
  | object (arg : Options)
  | other
deriving DecidableEq

inductive InitError
  | noArgument
  | notAnObject
  | idWithoutPassword
  | passwordLength
  | outOfBounds
deriving DecidableEq

/-- The texts that are thrown. Reading behind the password text throws nothing. -/
def InitError.message : InitError → Option String
  | .noArgument => some "Must pass ZK init object"
  | .notAnObject => some "Init argument must be an object"
  | .idWithoutPassword => some "ZK init: client id and password must either be both specified or unspecified"
  | .passwordLength => some "ZK init: password does not have correct length"
  | .outOfBounds => none

/-- The arguments of realInit. -/
structure Request where
  hostPort : List UInt8
  sessionTimeout : Int32
  clientId : ClientId
deriving DecidableEq

theorem length_of_hexPairs {n : Nat} {hex p : List UInt8} (h : hexPairs n hex = some p) : p.length = n := by
  induction n generalizing hex p with
  | zero =>
      cases h
      rfl
  | succ n ih =>
      match hex with
      | high :: low :: rest =>
          rw [hexPairs, Option.map_eq_some_iff] at h
          obtain ⟨q, hq, rfl⟩ := h
          rw [List.length_cons, ih hq]
      | [] | [_] => cases h

def localClient : Option (List UInt8) → Option (List UInt8) → Except InitError ClientId
  | none, none => .ok ClientId.zero
  | some id, some password =>
      if password.length = 2 * passwordByteCount then
        match h : hexStringToPassword password with
        | some p => .ok ⟨stringToId id 0, p, length_of_hexPairs h⟩
        | none => .error .outOfBounds
      else .error .passwordLength
  | _, _ => .error .idWithoutPassword

def init : List Value → Except InitError Request
  | [] => .error .noArgument
  | .other :: _ => .error .notAnObject
  | .object arg :: _ => do
      let sessionTimeout := if arg.timeout = 0 then 20000 else arg.timeout
      let clientId ← localClient arg.clientId arg.clientPassword
      return ⟨arg.connect, sessionTimeout, clientId⟩

/-- The properties client_id and client_password of a session. -/
def save (client : ClientId) (arg : Options) : Options :=
  { arg with
    clientId := some (idAsString client.clientId)
    clientPassword := some (passwordToHexString client.passwd) }

theorem localClient_of_length (id : List UInt8) {password : List UInt8} (h : password.length = 2 * passwordByteCount) :
    ∃ client, localClient (some id) (some password) = .ok client ∧ client.clientId = stringToId id 0 ∧
      hexStringToPassword password = some client.passwd := by
  obtain ⟨p, hp, hlen⟩ := hexPairs_isSome h
  refine ⟨⟨stringToId id 0, p, hlen⟩, ?_, rfl, hp⟩
  rw [localClient, if_pos h]
  split
  next q hq =>
    obtain rfl : q = p := Option.some.inj (hq.symm.trans hp)
    rfl
  next hnone => exact absurd (hnone.symm.trans hp) nofun

theorem localClient_save (client : ClientId) :
    localClient (some (idAsString client.clientId)) (some (passwordToHexString client.passwd)) = .ok client := by
  have hlen : (passwordToHexString client.passwd).length = 2 * passwordByteCount := by
    rw [length_passwordToHexString, client.length_passwd]
  obtain ⟨loaded, hok, hid, hpass⟩ := localClient_of_length (idAsString client.clientId) hlen
  have hread := hexPairs_passwordToHexString client.passwd
  rw [client.length_passwd] at hread
  obtain ⟨loadedId, loadedPass, hl⟩ := loaded
  obtain ⟨savedId, savedPass, hs⟩ := client
  obtain rfl : loadedPass = savedPass := Option.some.inj (hpass.symm.trans hread)
  obtain rfl : loadedId = savedId := hid.trans (stringToId_idAsString savedId 0)
  exact hok

theorem init_eq (arg : Options) (rest : List Value) :
    init (.object arg :: rest) = (localClient arg.clientId arg.clientPassword).map
      fun client => ⟨arg.connect, if arg.timeout = 0 then 20000 else arg.timeout, client⟩ := rfl

/-- Who gives the two texts of a session to init asks for that session again. Other texts
of the right length are taken too, and those that show up again as client_password are
the ones in capital digits. -/
theorem saved_session_resumed (client : ClientId) (arg : Options) :
    init [.object (save client arg)] =
      .ok ⟨arg.connect, if arg.timeout = 0 then 20000 else arg.timeout, client⟩ ∧
    ∀ id password : List UInt8,
      match init [.object { arg with clientId := some id, clientPassword := some password }] with
      | .ok request => password.length = 32 ∧
          (passwordToHexString request.clientId.passwd = password ↔ ∀ h ∈ password, isHexDigit h = true)
      | .error e => password.length ≠ 32 ∧ e = .passwordLength := by
  refine ⟨?_, fun id password => ?_⟩
  · rw [init_eq, save, localClient_save]
    rfl
  · rw [init_eq]
    by_cases hlen : password.length = 2 * passwordByteCount
    · obtain ⟨loaded, hok, -, hpass⟩ := localClient_of_length id hlen
      rw [hok]
      refine ⟨hlen, fun heq h hh => ?_, fun hdigits => passwordToHexString_hexPairs hlen hdigits hpass⟩
      rw [← heq] at hh
      exact isHexDigit_of_mem_passwordToHexString hh
    · rw [localClient, if_neg hlen]
      exact ⟨hlen, rfl⟩

end Init

end StudyNotes.NodeZk.Session
