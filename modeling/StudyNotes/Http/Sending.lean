import StudyNotes.Http.UriParts

namespace StudyNotes.Http.Sending

open Program Message Uri Lists.Overwrite Words.CLanguage
open UriParts (resolve_eq_ok_iff)
open Mail.Program (ascii)

section text

variable {text message : List UInt8}

theorem strcpy_eq_ok {block : List UInt8} (h : strcpy (some block) text = .ok message) :
    (cStr text).length < block.length := by
  rw [strcpy] at h
  split at h
  next hfits => exact hfits
  next => cases h

end text

section block

variable {text message : List UInt8} {fresh : Nat → UInt8}

theorem length_malloc {n : Nat} {block : List UInt8} (h : malloc fresh (toSize (toInt n)) = some block) :
    block.length < 2 ^ 31 := by
  have hsize := toSize_toInt n
  rw [malloc] at h
  split at h
  next hle =>
    -- A negative length is a size that no block has.
    rw [← Option.some.inj h, List.length_map, List.length_range]
    omega
  next => cases h

theorem malloc_of_lt (fresh : Nat → UInt8) {n : Nat} (h : n < 2 ^ 31) :
    ∃ block, malloc fresh (toSize (toInt n)) = some block ∧ block.length = n := by
  rw [toInt_of_lt h, toSize_natCast (by omega), malloc, if_pos (by omega)]
  exact ⟨_, rfl, by rw [List.length_map, List.length_range]⟩

theorem strcpy_malloc_eq_ok (h : strcpy (malloc fresh (toSize (toInt (text.length + 1)))) text = .ok message) :
    (cStr text).length + 1 < 2 ^ 31 := by
  cases hblock : malloc fresh (toSize (toInt (text.length + 1))) with
  | none =>
      rw [hblock] at h
      cases h
  | some block =>
      rw [hblock] at h
      have hfits := strcpy_eq_ok h
      have hsize := length_malloc hblock
      omega

theorem strcpy_malloc_of_clear (hclear : 0 ∉ text) (hlen : text.length + 1 < 2 ^ 31) :
    strcpy (malloc fresh (toSize (toInt (text.length + 1)))) text = .ok (text ++ [0]) := by
  obtain ⟨block, hblock, hsize⟩ := malloc_of_lt fresh hlen
  rw [hblock, strcpy, cStr_eq_self_iff.2 hclear, if_pos (by omega), overwrite_zero, List.drop_of_length_le,
    List.append_nil]
  rw [List.length_append, List.length_singleton, hsize]

end block

section call

variable {client : HttpRequestCall} {fresh : Nat → UInt8} {R : Request} {M : Method} {order : Order R.headers}
variable {text : List UInt8}

theorem onConnect_eq {message : List UInt8} (hzero : 0 ∈ message) (hlen : (cStr message).length < 2 ^ 32) {status : Int}
    (hstatus : status ≠ -1) : onConnect ⟨some message⟩ status = .ok (some (cStr message)) := by
  have hbuf : uvBufInit message (cStr message).length = cStr message := by
    rw [uvBufInit, Nat.mod_eq_of_lt hlen]
    exact (List.prefix_iff_eq_take.1 (List.takeWhile_prefix _)).symm
  rw [onConnect, if_neg hstatus]
  dsimp only
  rw [if_pos hzero, hbuf]
  rfl

/-- No zero byte is ever written. -/
theorem zero_notMem_onConnect {status : Int} {written : List UInt8} (h : onConnect client status = .ok (some written)) :
    0 ∉ written := by
  rw [onConnect] at h
  split at h
  · cases h
  · split at h
    · cases h
    next message _ =>
      split at h
      · have hwritten : uvBufInit message (cStr message).length = written := Option.some.inj (Except.ok.inj h)
        have hstart : written <+: cStr message := by
          refine List.prefix_of_prefix_length_le (hwritten ▸ List.take_prefix _ _) (List.takeWhile_prefix _) ?_
          rw [← hwritten, uvBufInit, List.length_take]
          exact (Nat.min_le_left _ _).trans (Nat.mod_le _ _)
        exact fun hmem => zero_notMem_cStr message (hstart.subset hmem)
      · cases h

theorem send_eq (hmethod : R.method = some M) (htext : R.toString order = .ok text) :
    client.send fresh R order = do
      let message ← strcpy (malloc fresh (toSize (toInt (text.length + 1)))) text
      let query ← resolveDnsAndSendRequest M.host M.port
      return (⟨some message⟩, some query) := by
  rw [HttpRequestCall.send, hmethod]
  dsimp only
  rw [htext]
  exact pure_bind text _

/-- What is stored is the request, with a zero behind it, and what is written is the request. -/
def Delivers (client : HttpRequestCall) (fresh : Nat → UInt8) (R : Request) (order : Order R.headers) : Prop :=
  ∃ text query, R.toString order = .ok text ∧
    client.send fresh R order = .ok (⟨some (text ++ [0])⟩, some query) ∧
    ∀ status : Int, status ≠ -1 → onConnect ⟨some (text ++ [0])⟩ status = .ok (some text)

/-- No text of the request has a zero in it. -/
structure ZeroFree (R : Request) (M : Method) : Prop where
  getPost : 0 ∉ M.getPost
  uri : 0 ∉ M.uri
  host : 0 ∉ M.host
  headers : ∀ name value, R.headers.lookup name = some value → 0 ∉ name ∧ 0 ∉ value
  postData : 0 ∉ R.postData

theorem zero_notMem_line {name value : List UInt8} : 0 ∉ line name value ↔ 0 ∉ name ∧ 0 ∉ value := by
  have hsep : 0 ∉ ascii ": " := by decide
  have hend : 0 ∉ ascii "\r\n" := by decide
  simp only [line, List.mem_append, not_or, hsep, hend, not_false_eq_true, and_true]

theorem zero_notMem_startLines {M : Method} : 0 ∉ startLines M ↔ 0 ∉ M.getPost ∧ 0 ∉ M.uri ∧ 0 ∉ M.host := by
  have hspace : 0 ∉ ascii " " := by decide
  have hversion : 0 ∉ ascii " HTTP/1.1\r\n" := by decide
  have hhost : 0 ∉ ascii "Host: " := by decide
  have hend : 0 ∉ ascii "\r\n" := by decide
  simp only [startLines, List.mem_append, not_or, hspace, hversion, hhost, hend, not_false_eq_true, and_true, true_and,
    and_assoc]

theorem zero_notMem_iff (hmethod : R.method = some M) (htext : R.toString order = .ok text) :
    0 ∉ text ↔ ZeroFree R M := by
  have hend : 0 ∉ ascii "\r\n" := by decide
  rw [toString_eq hmethod] at htext
  cases htext
  simp only [List.mem_append, not_or, zero_notMem_startLines, hend, not_false_eq_true, and_true]
  constructor
  · rintro ⟨⟨⟨hget, huri, hhost⟩, hheaders⟩, hpost⟩
    refine ⟨hget, huri, hhost, fun name value hlookup => ?_, hpost⟩
    rw [← zero_notMem_line]
    exact fun hmem => hheaders (List.mem_flatMap.2 ⟨_, (mem_walk_iff order).2 hlookup, hmem⟩)
  · intro h
    refine ⟨⟨⟨h.getPost, h.uri, h.host⟩, fun hmem => ?_⟩, h.postData⟩
    obtain ⟨e, he, hline⟩ := List.mem_flatMap.1 hmem
    exact zero_notMem_line.2 (h.headers e.1 e.2 ((mem_walk_iff order).1 he)) hline

/-- Both the copy and the text of the port have to fit. -/
theorem send_eq_ok_iff (hmethod : R.method = some M) (htext : R.toString order = .ok text) {message : List UInt8}
    {query : Query} :
    client.send fresh R order = .ok (⟨some message⟩, some query) ↔
      strcpy (malloc fresh (toSize (toInt (text.length + 1)))) text = .ok message ∧
        resolveDnsAndSendRequest M.host M.port = .ok query := by
  rw [send_eq hmethod htext]
  cases strcpy (malloc fresh (toSize (toInt (text.length + 1)))) text with
  | error fault => exact ⟨nofun, nofun⟩
  | ok copied =>
      cases resolveDnsAndSendRequest M.host M.port with
      | error fault => exact ⟨nofun, nofun⟩
      | ok found =>
          constructor
          · intro h
            cases h
            exact ⟨rfl, rfl⟩
          · rintro ⟨hcopied, hfound⟩
            cases hcopied
            cases hfound
            rfl

theorem delivers_request_iff (client : HttpRequestCall) (fresh : Nat → UInt8) (R : Request) (order : Order R.headers)
    (M : Method) (text : List UInt8) (hmethod : R.method = some M) (htext : R.toString order = .ok text) :
    Delivers client fresh R order ↔
      ZeroFree R M ∧ text.length + 1 < 2 ^ 31 ∧ (ascii (ToString.toString M.port)).length < strPortSize := by
  rw [← zero_notMem_iff hmethod htext, ← resolve_eq_ok_iff]
  constructor
  · rintro ⟨text', query, htext', hsend, hwritten⟩
    cases htext.symm.trans htext'
    have hclear : 0 ∉ text := zero_notMem_onConnect (hwritten 0 (by decide))
    obtain ⟨hcopy, hquery⟩ := (send_eq_ok_iff hmethod htext).1 hsend
    have hlen := strcpy_malloc_eq_ok hcopy
    rw [cStr_eq_self_iff.2 hclear] at hlen
    exact ⟨hclear, hlen, query, hquery⟩
  · rintro ⟨hclear, hlen, query, hquery⟩
    refine ⟨text, query, htext, (send_eq_ok_iff hmethod htext).2 ⟨strcpy_malloc_of_clear hclear hlen, hquery⟩, ?_⟩
    intro status hstatus
    have hkept : cStr (text ++ [0]) = text := cStr_append_zero hclear []
    rw [onConnect_eq (by simp) (by rw [hkept]; omega) hstatus, hkept]

theorem delivers_request_iff_home :
    homeRequest.method = some homeMethod ∧ Delivers ⟨none⟩ (fun _ => 0) homeRequest (defaultOrder _) := by
  refine ⟨rfl, (delivers_request_iff ⟨none⟩ (fun _ => 0) homeRequest (defaultOrder _) homeMethod _ rfl
    (toString_eq rfl _)).2 ⟨?_, ?_, by decide⟩⟩
  · exact (zero_notMem_iff rfl (toString_eq rfl (defaultOrder _))).1 (by decide +kernel)
  · decide +kernel

def zeroRequest : Request := (homeRequest.setPostData [0]).2

/-- A body of one zero byte is not written, though the header announces it. -/
theorem delivers_request_fails :
    zeroRequest.headers.lookup contentLength = some (ascii "1") ∧
      ∃ order : Order zeroRequest.headers, ¬Delivers ⟨none⟩ (fun _ => 0) zeroRequest order := by
  refine ⟨by decide, ?_⟩
  obtain ⟨order⟩ := exists_order zeroRequest.headers
  refine ⟨order, ?_⟩
  rintro ⟨text, query, htext, -, hwritten⟩
  have hclear : 0 ∉ text := zero_notMem_onConnect (hwritten 0 (by decide))
  exact ((zero_notMem_iff rfl htext).1 hclear).postData (by decide)

end call

end StudyNotes.Http.Sending
