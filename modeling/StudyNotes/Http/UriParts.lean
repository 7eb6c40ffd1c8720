import Mathlib.Data.List.TakeWhile
import StudyNotes.Http.Message
import StudyNotes.Http.Uri

namespace StudyNotes.Http.UriParts

open Program Uri Codes.Decimal Words.Leftmost
open Message (decimal_eq)
open Mail.Program (ascii)

section port

theorem resolve_eq_ok_iff {host : List UInt8} {port : Int} :
    (∃ query, resolveDnsAndSendRequest host port = .ok query) ↔
      (ascii (ToString.toString port)).length < strPortSize := by
  rw [resolveDnsAndSendRequest]
  split
  next h => exact ⟨fun _ => h, fun _ => ⟨_, rfl⟩⟩
  next h => exact ⟨nofun, fun h' => absurd h' h⟩

theorem port_fits {n : Nat} (h : n < 10 ^ 9) : (ascii (ToString.toString (n : Int))).length < strPortSize := by
  have htext : ascii (ToString.toString (n : Int)) = numeral n := decimal_eq n
  rw [htext]
  exact Nat.lt_succ_of_le ((length_numeral_le (by decide)).2 h)

/-- The port is read without an overflow, it is a port number, and its text fits into str_port. -/
def PortSafe (type uri : List UInt8) : Prop :=
  ∃ M, parseUri (Method.init type uri) uri = .ok (true, M) ∧ 1 ≤ M.port ∧ M.port ≤ 65535 ∧
    ∃ query, resolveDnsAndSendRequest M.host M.port = .ok query

theorem portOf_default (hostport : List UInt8) :
    ∃ n : Nat, portOf 80 hostport = n ∧ 1 ≤ n ∧ (n ≤ 65535 ↔ portNumber hostport ≤ 65535) := by
  rw [portOf]
  split
  · exact ⟨80, rfl, by decide, by omega⟩
  · exact ⟨portNumber hostport, rfl, by omega, Iff.rfl⟩

theorem portSafe_iff (type uri : List UInt8) (haccepted : ascii "://" <:+: uri) :
    PortSafe type uri ↔ portNumber (authority (afterScheme uri)) ≤ 65535 := by
  cases hcut : uri.dropInfix? (ascii "://") with
  | none => exact absurd haccepted (dropInfix?_eq_none.1 hcut)
  | some pr =>
      obtain ⟨p, rest⟩ := pr
      have hparse := parseUri_of_cut (M := Method.init type uri) rfl hcut
      obtain ⟨n, hport, hlow, hhigh⟩ := portOf_default (authority rest)
      rw [PortSafe, afterScheme_of_cut hcut, hparse, ← hhigh]
      constructor
      · rintro ⟨M, hM, -, hle, -⟩
        split at hM
        · cases hM
          exact Int.ofNat_le.1 (hport ▸ hle)
        · cases hM
      · intro hle
        have hfits := hhigh.1 hle
        rw [if_pos (by omega)]
        refine ⟨_, rfl, ?_⟩
        change 1 ≤ portOf 80 (authority rest) ∧ portOf 80 (authority rest) ≤ 65535 ∧
          ∃ query, resolveDnsAndSendRequest _ (portOf 80 (authority rest)) = .ok query
        rw [hport]
        exact ⟨by omega, by omega, resolve_eq_ok_iff.2 (port_fits (by omega))⟩

theorem portSafe_iff_github :
    ascii "://" <:+: ascii "http://github.com:80/master" ∧
      (PortSafe (ascii "GET") (ascii "http://github.com:80/master") ↔
        portNumber (authority (afterScheme (ascii "http://github.com:80/master"))) ≤ 65535) ∧
      portNumber (authority (afterScheme (ascii "http://github.com:80/master"))) = 80 :=
  ⟨by decide, portSafe_iff (ascii "GET") (ascii "http://github.com:80/master") (by decide), by decide⟩

/-- Beyond 65535 the port is kept all the same, from ten digits on it does not fit into str_port,
and from two to the 31 on the loop overflows. -/
theorem portSafe_fails :
    parseUri (Method.init (ascii "GET") (ascii "http://a:65536")) (ascii "http://a:65536") =
        .ok (true, ⟨ascii "GET", ascii "http://a:65536", ascii "a", 65536, []⟩) ∧
      ¬PortSafe (ascii "GET") (ascii "http://a:65536") ∧
      parseUri (Method.init (ascii "GET") (ascii "http://a:1000000000")) (ascii "http://a:1000000000") =
        .ok (true, ⟨ascii "GET", ascii "http://a:1000000000", ascii "a", 1000000000, []⟩) ∧
      resolveDnsAndSendRequest (ascii "a") 1000000000 = .error .outOfBounds ∧
      parseUri (Method.init (ascii "GET") (ascii "http://a:2147483648")) (ascii "http://a:2147483648") =
        .error .overflow := by
  have hlarge : parseUri (Method.init (ascii "GET") (ascii "http://a:65536")) (ascii "http://a:65536") =
      .ok (true, ⟨ascii "GET", ascii "http://a:65536", ascii "a", 65536, []⟩) := by rfl
  refine ⟨hlarge, ?_, by rfl, by rfl, by rfl⟩
  rintro ⟨M, hM, -, hle, -⟩
  cases hlarge.symm.trans hM
  exact absurd hle (by decide)

end port

section parts

/-- The ways to write an optional port. -/
inductive PortText : Option Nat → List UInt8 → Prop
  | absent : PortText none []
  | written {n : Nat} {text : List UInt8} (h : Writes text n) (hlow : 1 ≤ n) (hhigh : n ≤ 65535) :
      PortText (some n) (colon :: text)

/-- The parts that a URI is composed of. No string is longer than max_size. -/
structure Parts where
  scheme : List UInt8
  host : List UInt8
  port : Option Nat
  portText : List UInt8
  path : List UInt8
  scheme_clear : ¬ascii "://" <:+: scheme
  host_ne_nil : host ≠ []
  slash_notMem : slash ∉ host
  colon_notMem : colon ∉ host
  port_written : PortText port portText
  path_start : path = [] ∨ path.head? = some slash
  fits : (scheme ++ ascii "://" ++ (host ++ portText ++ path)).length < 2 ^ 63

def Parts.compose (U : Parts) : List UInt8 := U.scheme ++ ascii "://" ++ (U.host ++ U.portText ++ U.path)

theorem PortText.slash_notMem {port : Option Nat} {text : List UInt8} (h : PortText port text) : slash ∉ text := by
  cases h with
  | absent => exact List.not_mem_nil
  | written h =>
      rw [List.mem_cons, not_or]
      exact ⟨by decide, fun hmem => absurd (h.digits slash hmem) (by decide)⟩

/-- The colon before the port is found at a position that is an int. -/
theorem portSplit_written {host text : List UInt8} {n : Nat} (hhost : colon ∉ host) (htext : Writes text n) :
    portSplit (host ++ colon :: text) 0 (-1) = (toInt host.length, if toInt host.length > 0 then text else []) := by
  have hclear : colon ∉ text := fun hmem => absurd (htext.digits colon hmem) (by decide)
  rw [portSplit_append hhost, Nat.zero_add, portSplit, if_pos rfl]
  by_cases hpos : toInt host.length > 0
  · rw [if_pos hpos, if_pos hpos, List.takeWhile_eq_self_iff.2 htext.digits]
  · rw [if_neg hpos, if_neg hpos, portSplit_clear hclear]

theorem hostport_absent {host : List UInt8} (hhost : colon ∉ host) : hostOf host = host ∧ portNumber host = 0 := by
  rw [hostOf, portNumber, portSplit_clear hhost]
  exact ⟨rfl, rfl⟩

theorem hostport_written {host text : List UInt8} {n : Nat} (hhost : colon ∉ host) (htext : Writes text n)
    (hne : host ≠ []) (hfits : (host ++ colon :: text).length < 2 ^ 63) :
    (hostOf (host ++ colon :: text)).length = host.length ↔ host.length < 2 ^ 31 := by
  have hlt : host.length < (host ++ colon :: text).length := by
    rw [List.length_append, List.length_cons]
    omega
  simp only [hostOf, portSplit_written hhost htext]
  exact length_take_toInt hfits (List.length_pos_of_ne_nil hne) hlt

theorem hostport_written_short {host text : List UInt8} {n : Nat} (hhost : colon ∉ host) (htext : Writes text n)
    (hne : host ≠ []) (hshort : host.length < 2 ^ 31) :
    hostOf (host ++ colon :: text) = host ∧ portNumber (host ++ colon :: text) = n := by
  have hpos := List.length_pos_of_ne_nil hne
  rw [hostOf, portNumber, portSplit_written hhost htext, toInt_of_lt hshort]
  constructor
  · rw [count, if_neg (by omega), Option.elim_some, toSize_natCast (by omega), List.take_left]
  · rw [if_pos (by omega), htext.value]

/-- A colon whose position turns negative is not seen: the host is all there is, and no port is read. -/
theorem hostport_written_negative {host text : List UInt8} {n : Nat} (hhost : colon ∉ host) (htext : Writes text n)
    (hneg : toInt host.length < 0) (hfits : (host ++ colon :: text).length < 2 ^ 63) :
    hostOf (host ++ colon :: text) = host ++ colon :: text ∧ portNumber (host ++ colon :: text) = 0 := by
  simp only [hostOf, portNumber, portSplit_written hhost htext]
  rw [if_neg (by omega), count]
  refine ⟨?_, rfl⟩
  split
  · rfl
  · have hlow := (toInt_bounds host.length).1
    have hsize := le_toSize (by omega) hneg
    rw [Option.elim_some, List.take_of_length_le (by omega)]

/-- Host and port are read back unless the position of the colon is no int. -/
theorem hostport_iff {host portText : List UInt8} {port : Option Nat} (hne : host ≠ []) (hhost : colon ∉ host)
    (hport : PortText port portText) (hfits : (host ++ portText).length < 2 ^ 63) :
    (portNumber (host ++ portText) < 2 ^ 31 ∧ hostOf (host ++ portText) = host ∧
        portOf 80 (host ++ portText) = (port.getD 80 : Nat)) ↔ port = none ∨ host.length < 2 ^ 31 := by
  cases hport with
  | absent =>
      rw [List.append_nil]
      obtain ⟨hhostOf, hnumber⟩ := hostport_absent hhost
      rw [hhostOf, portOf, hnumber]
      simp
  | @written n text htext hlow hhigh =>
      constructor
      · rintro ⟨-, hhostOf, -⟩
        exact .inr ((hostport_written hhost htext hne hfits).1 (congrArg List.length hhostOf))
      · rintro (hnone | hshort)
        · cases hnone
        · obtain ⟨hhostOf, hnumber⟩ := hostport_written_short hhost htext hne hshort
          rw [hhostOf, portOf, hnumber, if_neg (by omega)]
          exact ⟨by omega, rfl, rfl⟩

namespace Parts

variable (U : Parts)

/-- The member values that the parts stand for. -/
def method (type : List UInt8) : Method := ⟨type, U.compose, U.host, (U.port.getD 80 : Nat), U.path⟩

theorem cut : U.compose.dropInfix? (ascii "://") = some (U.scheme, U.host ++ U.portText ++ U.path) :=
  dropInfix?_append (by decide) U.scheme_clear

theorem hostport_fits : (U.host ++ U.portText).length < 2 ^ 63 := by
  have hfits := U.fits
  simp only [List.length_append] at hfits ⊢
  omega

theorem parseUri_eq (type : List UInt8) :
    parseUri (Method.init type U.compose) U.compose =
      if portNumber (U.host ++ U.portText) < 2 ^ 31 then
        .ok (true, ⟨type, U.compose, hostOf (U.host ++ U.portText), portOf 80 (U.host ++ U.portText), U.path⟩)
      else .error .overflow := by
  have hclear : slash ∉ U.host ++ U.portText := by
    rw [List.mem_append, not_or]
    exact ⟨U.slash_notMem, U.port_written.slash_notMem⟩
  obtain ⟨hauth, htarget⟩ := authority_append hclear U.path_start
  rw [parseUri_of_cut rfl U.cut, hauth, htarget]
  rfl

end Parts

theorem parseUri_compose_iff (type : List UInt8) (U : Parts) :
    parseUri (Method.init type U.compose) U.compose = .ok (true, U.method type) ↔
      U.port = none ∨ U.host.length < 2 ^ 31 := by
  rw [U.parseUri_eq, ← hostport_iff U.host_ne_nil U.colon_notMem U.port_written U.hostport_fits, Parts.method]
  constructor
  · intro h
    split at h
    next hnumber =>
      injection h with h
      injection h with _ h
      injection h with _ _ hhost hport
      exact ⟨hnumber, hhost, hport⟩
    next => cases h
  · rintro ⟨hnumber, hhost, hport⟩
    rw [if_pos hnumber, hhost, hport]

def github : Parts where
  scheme := ascii "http"
  host := ascii "github.com"
  port := some 8080
  portText := colon :: numeral 8080
  path := ascii "/master:1://"
  scheme_clear := by decide
  host_ne_nil := by decide
  slash_notMem := by decide
  colon_notMem := by decide
  port_written := .written (writes_numeral 8080) (by decide) (by decide)
  path_start := .inr (by decide)
  fits := by decide

theorem parseUri_compose_github :
    github.compose = ascii "http://github.com:8080/master:1://" ∧
      parseUri (Method.init (ascii "GET") github.compose) github.compose =
        .ok (true, ⟨ascii "GET", github.compose, ascii "github.com", 8080, ascii "/master:1://"⟩) :=
  ⟨by decide, (parseUri_compose_iff (ascii "GET") github).2 (.inr (by decide))⟩

/-- A host of two to the 31 letters, with a port. -/
def longHost : Parts where
  scheme := ascii "http"
  host := List.replicate (2 ^ 31) 97
  port := some 8080
  portText := colon :: numeral 8080
  path := ascii "/"
  scheme_clear := by decide
  host_ne_nil := by
    rw [ne_eq, List.replicate_eq_nil_iff]
    decide
  slash_notMem hmem := absurd (List.eq_of_mem_replicate hmem) (by decide)
  colon_notMem hmem := absurd (List.eq_of_mem_replicate hmem) (by decide)
  port_written := .written (writes_numeral 8080) (by decide) (by decide)
  path_start := .inr (by decide)
  fits := by
    simp only [List.length_append, List.length_replicate]
    decide

theorem longHost_portText : longHost.portText = colon :: numeral 8080 := rfl

theorem parseUri_longHost :
    parseUri (Method.init (ascii "GET") longHost.compose) longHost.compose =
        .ok (true, ⟨ascii "GET", longHost.compose, longHost.host ++ longHost.portText, 80, ascii "/"⟩) ∧
      parseUri (Method.init (ascii "GET") longHost.compose) longHost.compose ≠
        .ok (true, longHost.method (ascii "GET")) := by
  have hparse : parseUri (Method.init (ascii "GET") longHost.compose) longHost.compose =
      .ok (true, ⟨ascii "GET", longHost.compose, longHost.host ++ longHost.portText, 80, ascii "/"⟩) := by
    have hlen : longHost.host.length = 2 ^ 31 := List.length_replicate
    have hneg : toInt longHost.host.length < 0 := by
      rw [hlen]
      decide
    obtain ⟨hhost, hnumber⟩ :=
      hostport_written_negative longHost.colon_notMem (writes_numeral 8080) hneg longHost.hostport_fits
    rw [← longHost_portText] at hhost hnumber
    rw [longHost.parseUri_eq, portOf, hnumber, hhost, if_pos (Nat.two_pow_pos 31), if_pos rfl]
    rfl
  refine ⟨hparse, ?_⟩
  rw [hparse]
  intro heq
  injection heq with heq
  injection heq with _ heq
  injection heq with _ _ hhost
  cases List.append_right_eq_self.1 hhost

end parts

end StudyNotes.Http.UriParts
