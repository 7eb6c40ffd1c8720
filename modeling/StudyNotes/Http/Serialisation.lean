import Mathlib.Data.List.TakeWhile
import StudyNotes.Codes.HttpRequest
import StudyNotes.Http.Posting
import StudyNotes.Http.Uri

namespace StudyNotes.Http.Serialisation

open Program Uri Codes.Decimal Codes.HttpRequest Words.Leftmost
open Posting (post)
open Message (startLines toString_eq mem_walk_iff headers_new defaultEntries defaultOrder homeMethod homeRequest
  decimal_eq)
open Mail.Program (ascii)

section method

variable {type uri : List UInt8} {M : Method}

/-- A method that the constructor made is the one its text is parsed to. -/
theorem new_eq_ok (h : Method.new type uri = .ok M) :
    M = ⟨type, uri, hostOf (authority (afterScheme uri)), portOf 80 (authority (afterScheme uri)),
      target (afterScheme uri)⟩ ∧ ∃ p, uri = p ++ ascii "://" ++ afterScheme uri := by
  rw [Method.new] at h
  cases hcut : uri.dropInfix? (ascii "://") with
  | none =>
      rw [parseUri_of_clear (dropInfix?_eq_none.1 hcut)] at h
      cases h
  | some pr =>
      obtain ⟨p, rest⟩ := pr
      rw [parseUri_of_cut rfl hcut] at h
      rw [afterScheme_of_cut hcut]
      split at h
      · cases h
        exact ⟨rfl, p, (dropInfix?_eq_some.1 hcut).1⟩
      · cases h

theorem hostOf_subset (hostport : List UInt8) : hostOf hostport ⊆ hostport := by
  rw [hostOf]
  cases count (portSplit hostport 0 (-1)).1 with
  | none => exact fun _ h => h
  | some n => exact List.take_subset n hostport

theorem target_ne_nil_iff {rest : List UInt8} : target rest ≠ [] ↔ slash ∈ rest := by
  rw [target, ne_eq, List.dropWhile_eq_nil_iff]
  constructor
  · intro h
    by_contra hno
    exact h fun ch hch => bne_iff_ne.2 (ne_of_mem_of_not_mem hch hno)
  · exact fun hmem hall => absurd (hall slash hmem) (by decide)

/-- Host and path are made of characters of the URI. -/
theorem new_subset (h : Method.new type uri = .ok M) : M.host ⊆ uri ∧ M.uri ⊆ uri := by
  obtain ⟨rfl, p, hp⟩ := new_eq_ok h
  have hrest : afterScheme uri ⊆ uri := by
    intro ch hch
    rw [hp]
    exact List.mem_append_right _ hch
  exact ⟨fun ch hch => hrest ((List.takeWhile_subset _) (hostOf_subset _ hch)),
    fun ch hch => hrest ((List.dropWhile_subset _) hch)⟩

end method

section headers

/-- Every header can be sent. -/
def Sendable (headers : Headers) : Prop :=
  ∀ name value, headers.lookup name = some value → Header.Valid (name, value)

theorem Sendable.insert {headers : Headers} {name value : List UInt8} (h : Sendable headers)
    (hnew : Header.Valid (name, value)) : Sendable (insertHeader headers name value) := by
  rw [insertHeader]
  split
  · exact h
  · intro name' value' hlookup
    by_cases heq : name' = name
    · subst heq
      rw [Finmap.lookup_insert] at hlookup
      cases hlookup
      exact hnew
    · rw [Finmap.lookup_insert_of_ne headers heq] at hlookup
      exact h name' value' hlookup

theorem sendable_new (method : Option Method) : Sendable (Request.new method).headers := by
  intro name value hlookup
  have hall : ∀ e ∈ defaultEntries, isToken e.1 && isClean e.2 := by decide
  rw [headers_new] at hlookup
  exact Bool.and_eq_true_iff.1 (hall _ (AList.mem_lookup_iff.1 hlookup))

theorem isClean_decimal (n : Nat) : isClean (decimal n) = true := by
  rw [decimal_eq, isClean_iff]
  exact ⟨fun h => absurd (isDigit_of_mem_numeral h) (by decide), fun h => absurd (isDigit_of_mem_numeral h) (by decide)⟩

theorem isToken_contentLength : isToken contentLength = true := by decide

theorem sendable_post {R : Request} (h : Sendable R.headers) (posts : List (List UInt8)) :
    Sendable (post R posts).headers := by
  induction posts generalizing R with
  | nil => exact h
  | cons text posts ih => exact ih (h.insert ⟨isToken_contentLength, isClean_decimal text.length⟩)

end headers

section message

variable {R : Request} {M : Method}

/-- The parts of a request, in the order of its text. -/
def message (M : Method) (R : Request) (order : Order R.headers) : Message :=
  ⟨M.getPost, M.uri, (ascii "Host", M.host) :: order.walk.entries.map fun e => (e.1, e.2), R.postData⟩

theorem toString_eq_render (hmethod : R.method = some M) (order : Order R.headers) :
    R.toString order = .ok (render (message M R order)) := by
  have hversion : ascii " HTTP/1.1\r\n" = [space] ++ version ++ crlf := by decide
  have hhost : ascii "Host: " = ascii "Host" ++ separator := by decide
  have hspace : ascii " " = [space] := by decide
  have hend : ascii "\r\n" = crlf := by decide
  have hlines : Message.headerLines order.walk.entries = headerLines (order.walk.entries.map fun e => (e.1, e.2)) := by
    rw [Message.headerLines, headerLines, List.flatMap_map]
    rfl
  rw [toString_eq hmethod, startLines, hversion, hhost, hspace, hend, hlines]
  simp only [render, requestLine, message, headerLines, headerLine, List.flatMap_cons, List.append_assoc]

theorem message_valid_iff (htype : isToken M.getPost = true) (hhost : isClean M.host = true) (huri : isClean M.uri = true)
    (hspace : space ∉ M.uri) (hheaders : Sendable R.headers) (order : Order R.headers) :
    (message M R order).Valid ↔ M.uri ≠ [] := by
  constructor
  · intro h
    exact (isTarget_iff.1 h.target).1
  · intro hne
    have hname : isToken (ascii "Host") = true := by decide
    refine ⟨htype, isTarget_iff.2 ⟨hne, huri, hspace⟩, List.forall_mem_cons.2 ⟨⟨hname, hhost⟩, ?_⟩⟩
    rw [List.forall_mem_map]
    exact fun e he => hheaders e.1 e.2 ((mem_walk_iff order).1 he)

theorem decode_toString_iff (type uri : List UInt8) (M : Method) (posted : Option (List UInt8))
    (order : Order (post (Request.new (some M)) posted.toList).headers) (htype : isToken type = true)
    (hclean : isClean uri = true) (hspace : space ∉ uri) (hnew : Method.new type uri = .ok M) :
    (∃ text, (post (Request.new (some M)) posted.toList).toString order = .ok text ∧
        decode text = some ⟨type, M.uri, (ascii "Host", M.host) :: order.walk.entries.map (fun e => (e.1, e.2)),
          posted.getD []⟩) ↔
      slash ∈ afterScheme uri := by
  have hmethod : (post (Request.new (some M)) posted.toList).method = some M := by cases posted <;> rfl
  have hbody : (post (Request.new (some M)) posted.toList).postData = posted.getD [] := by cases posted <;> rfl
  have hget : M.getPost = type := by rw [(new_eq_ok hnew).1]
  have huri : M.uri = target (afterScheme uri) := by rw [(new_eq_ok hnew).1]
  obtain ⟨hhostSub, huriSub⟩ := new_subset hnew
  obtain ⟨hcr, hlf⟩ := isClean_iff.1 hclean
  have hvalid := message_valid_iff (hget ▸ htype) (isClean_iff.2 ⟨fun h => hcr (hhostSub h), fun h => hlf (hhostSub h)⟩)
    (isClean_iff.2 ⟨fun h => hcr (huriSub h), fun h => hlf (huriSub h)⟩) (fun h => hspace (huriSub h))
    (sendable_post (sendable_new (some M)) posted.toList) order
  rw [huri, target_ne_nil_iff] at hvalid
  rw [← hvalid, ← hget, ← hbody, toString_eq_render hmethod]
  constructor
  · rintro ⟨text, htext, hdecode⟩
    exact (decode_eq_some_iff.1 hdecode).1
  · intro h
    exact ⟨_, rfl, decode_eq_some_iff.2 ⟨h, rfl⟩⟩

/-- The headers after setPostData with a body of three bytes. -/
def postedEntries : List (Σ _ : List UInt8, List UInt8) := ⟨contentLength, ascii "3"⟩ :: defaultEntries

theorem nodupKeys_postedEntries : postedEntries.NodupKeys := by
  change (postedEntries.map Sigma.fst).Nodup
  decide

theorem headers_posted :
    (post homeRequest [ascii "a=1"]).headers = AList.toFinmap ⟨postedEntries, nodupKeys_postedEntries⟩ := by
  apply Finmap.ext
  decide

def postedOrder : Order (post homeRequest [ascii "a=1"]).headers := ⟨_, headers_posted.symm⟩

theorem decode_toString_iff_home :
    Method.new (ascii "POST") (ascii "http://localhost/") = .ok homeMethod ∧
      ∃ text, (post homeRequest [ascii "a=1"]).toString postedOrder = .ok text ∧
        decode text = some ⟨ascii "POST", ascii "/", (ascii "Host", ascii "localhost") ::
          (contentLength, ascii "3") :: defaultEntries.map (fun e => (e.1, e.2)), ascii "a=1"⟩ :=
  ⟨by rfl, (decode_toString_iff (ascii "POST") (ascii "http://localhost/") homeMethod (some (ascii "a=1")) postedOrder
    (by decide) (by decide) (by decide) (by rfl)).2 (by decide)⟩

/-- Without a slash behind the host, the request line has no target. -/
theorem decode_toString_fails :
    Method.new (ascii "GET") (ascii "http://localhost") =
        .ok ⟨ascii "GET", ascii "http://localhost", ascii "localhost", 80, []⟩ ∧
      ∃ order text,
        (Request.new (some ⟨ascii "GET", ascii "http://localhost", ascii "localhost", 80, []⟩)).toString order = .ok text ∧
          (ascii "GET  HTTP/1.1\r\n").isPrefixOf text = true ∧ decode text = none := by
  refine ⟨by rfl, defaultOrder _, _, toString_eq rfl _, ?_, ?_⟩
  · rfl
  · rfl

end message

end StudyNotes.Http.Serialisation
