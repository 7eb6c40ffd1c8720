import StudyNotes.Mail.Sending

namespace StudyNotes.Mail.Attachment

open Codes.Base64 Program Sending

theorem blocks_of_short {doc : List UInt8} (h : doc.length ≤ inBufSize) : blocks doc = encode doc := by
  by_cases hdoc : doc = []
  · rw [hdoc, blocks_nil, encode]
  · rw [blocks_cons hdoc, List.take_of_length_le h, List.drop_of_length_le h, blocks_nil, List.append_nil]

theorem four_le_length_blocks {doc : List UInt8} (h : doc ≠ []) : 4 ≤ (blocks doc).length := by
  have hpos : 0 < doc.length := List.length_pos_iff.2 h
  rw [blocks_cons h, List.length_append, length_encode, List.length_take, inBufSize]
  omega

/-- The length of a full block is not a multiple of three, so that its encoding ends in padding,
which the encoding of a longer document does not have there. -/
theorem blocks_ne_of_long {doc : List UInt8} (h : inBufSize < doc.length) : blocks doc ≠ encode doc := by
  have hdoc : doc ≠ [] := List.ne_nil_of_length_pos (Nat.lt_of_le_of_lt (Nat.zero_le _) h)
  have hrest : doc.drop inBufSize ≠ [] := by
    rw [Ne, List.drop_eq_nil_iff]
    omega
  have hblock : (doc.take inBufSize).length = inBufSize := List.length_take_of_le (Nat.le_of_lt h)
  have hlen : (encode (doc.take inBufSize)).length = 5464 := by rw [length_encode, hblock]; rfl
  have hpad : (encode (doc.take inBufSize))[5463]? = some pad := by
    have hlast : (encode (doc.take inBufSize)).getLast? = some pad := getLast?_encode (by rw [hblock]; decide)
    rwa [List.getLast?_eq_getElem?, hlen] at hlast
  intro heq
  have hcons := blocks_cons hdoc
  have hwhole : (encode doc)[5463]? = some pad := by
    rw [← heq, hcons, List.getElem?_append_left (by omega), hpad]
  have hmore := four_le_length_blocks hrest
  have hle := length_le_of_pad hwhole
  rw [← heq, hcons, List.length_append] at hle
  omega

/-- The loop sends the encoding of the document, and a decoder gets the document back, exactly
when the document fits into the input buffer. -/
theorem attachment_iff (H : Host) (hH : Writes H) (doc inBuf outBuf : List UInt8) (hin : inBuf.length = inBufSize + 1)
    (hout : outBuf.length = outBufSize + 1) (w : World) (hw : w.unread = doc) :
    ∃ code, Emits (docLoop H doc.length doc.length 0 inBuf outBuf) w code [] (· = true) ∧
      (code = encode doc ↔ doc.length ≤ inBufSize) ∧ (decode code = some doc ↔ doc.length ≤ inBufSize) := by
  have hloop := emits_docLoop hH doc.length doc.length 0 inBuf outBuf w (by rw [hw, Nat.zero_add])
    (Nat.le_of_eq (by rw [hw])) hin hout
  rw [hw] at hloop
  have hiff : blocks doc = encode doc ↔ doc.length ≤ inBufSize :=
    ⟨fun heq => Nat.not_lt.1 fun hlong => blocks_ne_of_long hlong heq, blocks_of_short⟩
  refine ⟨blocks doc, hloop, hiff, ?_⟩
  rw [← hiff]
  constructor
  · intro h
    exact (encode_of_decode h).symm
  · intro h
    rw [h, decode_encode]

def localHost (html doc : List UInt8) : Host where
  socket := true
  gethostbyname := true
  connect := true
  write _ n := n
  write_le _ _ := Int.le_refl _
  read _ := some []
  file name := if name = htmlFile then some html else if name = docFile then some doc else none

theorem writes_localHost (html doc : List UInt8) : Writes (localHost html doc) := fun _ _ h => Int.natCast_pos.2 h

def inBuf₀ : List UInt8 := List.replicate (inBufSize + 1) 0

def outBuf₀ : List UInt8 := List.replicate (outBufSize + 1) 0

theorem attachment_hi : ∃ code,
    Emits (docLoop (localHost [] [104, 105]) 2 2 0 inBuf₀ outBuf₀) ⟨[], 0, 0, [104, 105]⟩ code [] (· = true) ∧
    decode code = some [104, 105] := by
  obtain ⟨code, hsent, -, hiff⟩ := attachment_iff (localHost [] [104, 105]) (writes_localHost _ _) [104, 105] inBuf₀
    outBuf₀ List.length_replicate List.length_replicate ⟨[], 0, 0, [104, 105]⟩ rfl
  exact ⟨code, hsent, hiff.2 (by decide)⟩

def longDoc : List UInt8 := List.replicate 4097 0

theorem attachment_broken : ∃ code,
    Emits (docLoop (localHost [] longDoc) 4097 4097 0 inBuf₀ outBuf₀) ⟨[], 0, 0, longDoc⟩ code [] (· = true) ∧
    code ≠ encode longDoc ∧ decode code ≠ some longDoc := by
  have hlen : longDoc.length = 4097 := List.length_replicate
  have hloop := emits_docLoop (writes_localHost [] longDoc) 4097 4097 0 inBuf₀ outBuf₀ ⟨[], 0, 0, longDoc⟩
    (by rw [Nat.zero_add, hlen]) (Nat.le_of_eq hlen) List.length_replicate List.length_replicate
  have hne : blocks longDoc ≠ encode longDoc := blocks_ne_of_long (by rw [hlen]; decide)
  exact ⟨_, hloop, hne, fun h => hne (encode_of_decode h).symm⟩

end StudyNotes.Mail.Attachment
